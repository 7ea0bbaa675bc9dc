import Brf.Verification.Alloc.Memory
import Brf.Verification.Alloc.Pages
import Brf.Verification.Bisect.Slice
import Brf.Verification.Compiler.Abi
import Brf.Verification.Compiler.ConstArrays
import Brf.Verification.Db.Truncation
import Brf.Verification.Exec.RoundTrip
import Brf.Verification.Helper.Buffers
import Brf.Verification.Helper.Faithful
import Brf.Verification.Helper.LockPairs
import Brf.Verification.Helper.MapReuse
import Brf.Verification.Helper.MapSizes
import Brf.Verification.Helper.RefPairs
import Brf.Verification.Hints.Frame
import Brf.Verification.Hub.OnceOnly
import Brf.Verification.Hub.ReproDelivery
import Brf.Verification.Ipc.Gate
import Brf.Verification.Mgr.MaxSignal
import Brf.Verification.Mgr.Rotation
import Brf.Verification.Mgr.Translation
import Brf.Verification.Prog.ChecksumTargets
import Brf.Verification.Prog.FileNames
import Brf.Verification.Prog.Heatmap
import Brf.Verification.Prog.Logs
import Brf.Verification.Prog.ResourceCentric
import Brf.Verification.Prog.Resources
import Brf.Verification.Prog.SizeMutation
import Brf.Verification.StructOps.Correctness
import Brf.Verification.StructOps.Externs
import Brf.Verification.StructOps.Shape
import Brf.Verification.Subsystem.Extraction
