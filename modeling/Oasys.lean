import Oasys.Spec.DurableStoreCorrect
import Oasys.Spec.SpinLockCorrect
import Oasys.Spec.MsgQueueCorrect
import Oasys.Spec.SXLockCorrect
import Oasys.Spec.TimerFiring
import Oasys.Spec.SmtpSessionCorrect
import Oasys.Spec.UnmarshalCrc
import Oasys.Spec.ExternalHandleCorrect
import Oasys.Spec.CheckedLogRecovery
import Oasys.Spec.TimerThreadCorrect
import Oasys.Spec.RateLimitedSocketCorrect
import Oasys.Spec.SparseArrayCorrect
import Oasys.Spec.RefCorrect
import Oasys.Spec.LogCorrect
import Oasys.Spec.StringSerializeCorrect
import Oasys.Spec.LockDebuggerCorrect
import Oasys.Spec.KeyPaths
import Oasys.Spec.URISetterRuns
import Oasys.Spec.IPSocketCorrect
import Oasys.Spec.ThreadStop
import Oasys.Spec.BerkeleyDBCorrect
import Oasys.Spec.ExternalDurableTableCorrect
import Oasys.Spec.Serialize2HashCorrect
import Oasys.Spec.RuleSetCorrect
import Oasys.Spec.TextCodeCorrect
import Oasys.Spec.OptParserAgrees
import Oasys.Spec.DurableObjectCacheLimits
import Oasys.Spec.SparseBitmapIterator
import Oasys.Spec.ReplaceWithFileCorrect
import Oasys.Spec.FileSystemTableAllOrNothing
import Oasys.Spec.KeyMalformed
import Oasys.Spec.FileBackedObjectStoreCorrect
import Oasys.Spec.FileSystemStoreDurable
import Oasys.Spec.IoCallsCorrect
import Oasys.Spec.BufferedOutputCorrect
import Oasys.Spec.LogFileCorrect
import Oasys.Spec.LogOutputCorrect
import Oasys.Spec.FileCopyCorrect
import Oasys.Spec.FileBackedObjectRoundTrip
import Oasys.Spec.Base16Correct
import Oasys.Spec.LockGroupCorrect
import Oasys.Spec.TimeCorrect
import Oasys.Spec.BoundedPriorityQueueCorrect
import Oasys.Spec.StringAppenderCorrect
import Oasys.Spec.TclCommandCorrect
import Oasys.Spec.InitSequencerCycles
import Oasys.Spec.XMLSerializeCorrect
import Oasys.Spec.InternalKeyDurableTableCorrect
