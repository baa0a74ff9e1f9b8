import SchedOS.Kern.Frame
import SchedOS.Kern.Schedule
import SchedOS.Kern.Machine
import SchedOS.Kern.Proof.Step
import SchedOS.Kern.Proof.Table
import SchedOS.Kern.Proof.Safety
import SchedOS.Kern.Proof.Context
import SchedOS.Kern.Proof.Cycle
import SchedOS.Kern.Proof.RoundRobin
import SchedOS.Kern.Proof.Priority
import SchedOS.Lib.Credit
import SchedOS.Kern.Proof.Share
import SchedOS.Kern.Proof.ShareSelect
import SchedOS.Lib.Tickets
import SchedOS.Kern.Proof.Lottery
import SchedOS.Lib.XorShift
import SchedOS.Kern.Proof.Draw
import SchedOS.Kern.Proof.Gates
import SchedOS.Kern.Proof.Screen
import SchedOS.App.Program
import SchedOS.App.Proof.Output
import SchedOS.App.Proof.Exit
import SchedOS.App.Proof.StrictOutput
import SchedOS.Kern.Clock
import SchedOS.App.Proof.RoundOutput
import SchedOS.App.LockProgram
import SchedOS.Lib.SpinLock
import SchedOS.App.Proof.LockPrint
import SchedOS.Lib.Block
import SchedOS.Load.Loader
import SchedOS.Load.Proof.Loader
import SchedOS.Load.Boot
import SchedOS.Load.Mkbootdisk
import SchedOS.Load.Proof.Boot
import SchedOS.Load.Proof.Mkbootdisk
import SchedOS.Load.Proof.BootDisk
import SchedOS.Kern.Proof.Frames
import SchedOS.Console.Printf
import SchedOS.Lib.Numeral
import SchedOS.Console.Format
import SchedOS.Console.Proof.Numbuf
import SchedOS.Console.Proof.Parse
import SchedOS.Console.Proof.Convert
import SchedOS.Console.Proof.Field
import SchedOS.Console.Proof.Run
import SchedOS.Console.Proof.Cells
import SchedOS.Console.Proof.FieldLaw
import SchedOS.Console.Proof.Number
import SchedOS.App.Proof.LockProgress
import SchedOS.App.Proof.LockStrict
import SchedOS.Console.Proof.Render
import SchedOS.Console.Proof.Grammar
import SchedOS.Kern.Proof.Unknown
import SchedOS.Lib.Refine
import SchedOS.Load.Ide
import SchedOS.Load.Proof.Ide
import SchedOS.Load.Proof.Start
import SchedOS.Kern.Descriptors
import SchedOS.Kern.Proof.Descriptors
import SchedOS.Kern.Proof.Privilege
import SchedOS.App.Proof.LotteryExit
import SchedOS.Kern.Board
import SchedOS.Kern.Proof.Board
