import LiteRTOS.App.Startup
import LiteRTOS.Library.BitMask
import LiteRTOS.Library.FixedPriority
import LiteRTOS.Library.Registers
import LiteRTOS.Library.Run
import LiteRTOS.Mcal.Clock
import LiteRTOS.Mcal.IrqPriorities
import LiteRTOS.Mcal.PortInterleaving
import LiteRTOS.OS.Atomicity
import LiteRTOS.OS.Dispatch
import LiteRTOS.OS.Refinement
import LiteRTOS.OS.DelayOrder
import LiteRTOS.OS.Priorities
import LiteRTOS.OS.Registration
import LiteRTOS.OS.StartOrder
import LiteRTOS.OS.TickVisits
import LiteRTOS.OS.Timer
import LiteRTOS.OS.StepEffects
import LiteRTOS.OS.Clocked
import LiteRTOS.Mcal.PortModes
import LiteRTOS.Mcal.SysTick
import LiteRTOS.Core.Cpu
import LiteRTOS.Core.PendSV
import LiteRTOS.Core.ThreadStart
import LiteRTOS.Core.Layout
import LiteRTOS.Core.StackFill
import LiteRTOS.Core.ContextSwitch
import LiteRTOS.Core.FloatingPoint
import LiteRTOS.Library.Simulation
import LiteRTOS.Machine.System
import LiteRTOS.OS.Faults
import LiteRTOS.OS.Recovery
import LiteRTOS.Library.Total
import LiteRTOS.OS.Accounting
import LiteRTOS.App.Threads
import LiteRTOS.App.Blinking
import LiteRTOS.Library.ByteCopy
import LiteRTOS.App.SysStartup
import LiteRTOS.OS.Preemption
import LiteRTOS.App.Pins
import LiteRTOS.App.OnMachine
