import Spork.Lib.Interrupt
import Spork.Parfor.Blocks
import Spork.Parfor.Front
import Spork.Parfor.Handler
import Spork.Programs.Fib
import Spork.Programs.Queens
import Spork.Scan.Release
import Spork.Scan.Thirds
import Spork.Scheduler.Cap
import Spork.Scheduler.Joins
import Spork.Scheduler.Termination
import Spork.Scheduler.Tokens
import Spork.Scheduler.Truth
import Spork.Unroll.StepLoops
import Spork.Unroll.Probe
import Spork.Unroll.FormBatchedLoop
import Spork.Unroll.NarrowFactor
import Spork.Unroll.Cleanup
import Spork.Unroll.Published
import Spork.Unroll.Plans
import Spork.Unroll.MarkedLoops
import Spork.Unroll.ExitValues
import Spork.Unroll.Gem
import Spork.Unroll.GemMarker
import Spork.Unroll.GemProgress
import Spork.Unroll.Handoff
import Spork.Unroll.Refinement
import Spork.Unroll.Outline
