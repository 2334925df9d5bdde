import PsiServe.Db.Cursor
import PsiServe.Fiber.Apart
import PsiServe.Fiber.Mutex
import PsiServe.Fiber.SharedRuns
import PsiServe.Fiber.Turns
import PsiServe.Fiber.TxMutex
import PsiServe.Frac.Prevalidated
import PsiServe.Frac.RoundTrip
import PsiServe.Gas.Arena
import PsiServe.Handle.History
import PsiServe.Host.Caller
import PsiServe.Interp.Grow
import PsiServe.Jit.Partition
import PsiServe.Key.Decode
import PsiServe.Key.Order
import PsiServe.Parser.Immediates
import PsiServe.Pfs.Cid
import PsiServe.Pfs.Quota
import PsiServe.Pssz.Evolve
import PsiServe.Ssz.Canonical
import PsiServe.Stack.Mpsc
import PsiServe.Table.JitView
import PsiServe.Typing.BranchTypes
import PsiServe.Typing.LocalBytes
import PsiServe.Typing.Restoration
