import Esd1.Clocked.Machine
import Esd1.Lab4.ServoController
import Esd1.Clocked.Frames
import Esd1.Lab4.Proofs.Frames
import Esd1.Lab4.Proofs.Pwm
import Esd1.Lab4.Proofs.Bounds
import Esd1.Lab4.Proofs.Sweep
import Esd1.Lab4.Proofs.Interrupt
import Esd1.Lab4.Proofs.Leaving
import Esd1.Triangle.Wave
import Esd1.Lab4.Proofs.Orbit
import Esd1.Interleaving.Runs
import Esd1.Lab3.NiosSystem
import Esd1.Lab3.Proofs.NiosSystem
import Esd1.Lab3.Part3
import Esd1.Lab3.Display
import Esd1.Lab3.Proofs.Part3
import Esd1.Lab3.Proofs.Ticks
import Esd1.Lab3.Proofs.Keys
import Esd1.Lab4.Proofs.Reprogramming
import Esd1.Lab4.Proofs.Completion
import Esd1.Lab4.Proofs.WrapAround
import Esd1.Lab4.Proofs.Overrun
import Esd1.Lab3.Invocation
import Esd1.Lab3.Proofs.Polling
import Esd1.Interleaving.CutPoints
import Esd1.NiosII.Isa
import Esd1.NiosII.Rules
import Esd1.Lab2.Episodes
import Esd1.Lab2.Proofs.HexZero
import Esd1.Hal.JtagUart
import Esd1.Hal.Proofs.JtagUart
import Esd1.Hal.Proofs.JtagUartCalls
import Esd1.Lab3.AltIrq
import Esd1.Lab3.Proofs.AltIrq
import Esd1.Lab3.Proofs.AltIrqRuns
import Esd1.Clocked.Reset
import Esd1.ExampleCode.Digits
import Esd1.ExampleCode.FindMax
import Esd1.Hal.Alarms
import Esd1.Hal.Proofs.Alarms
import Esd1.Hal.Proofs.AlarmsRuns
import Esd1.Lab4.Board
import Esd1.Lab4.Proofs.Board
import Esd1.Circular.Turns
import Esd1.Merlin.Arbitrator
import Esd1.Merlin.CmdMux
import Esd1.Merlin.Proofs.Arbitrator
import Esd1.Merlin.Proofs.CmdMux
import Esd1.Merlin.Proofs.ScFifo
import Esd1.Clocked.Timing
import Esd1.Lab1.Lights
import Esd1.Lab3.Proofs.TimeOuts
