import Ulisse.Lib.Run
import Ulisse.Lib.BlockMem
import Ulisse.Lib.RingQueue
import Ulisse.Lib.Framing
import Ulisse.Lib.Registry
import Ulisse.Packet
import Ulisse.Handler.Basic
import Ulisse.Handler.Tx
import Ulisse.Handler.TxQueue
import Ulisse.Handler.Rx
import Ulisse.Handler.RxRefine
import Ulisse.Handler.RxRuns
import Ulisse.Handler.RxSound
import Ulisse.Handler.RxBuffer
import Ulisse.Handler.Registry
import Ulisse.Handler.Uninstall
import Ulisse.Handler.Boundary
import Ulisse.Handler.Resync
import Ulisse.Handler.Stream
import Ulisse.Handler.RxVariable
import Ulisse.Handler.LostByte
import Ulisse.Handler.Duplex
import Ulisse.Handler.Link
import Ulisse.Client.Basic
import Ulisse.Client.Calls
import Ulisse.Client.Invariant
import Ulisse.Client.Rules
import Ulisse.Client.Latest
import Ulisse.Client.Ack
import Ulisse.Client.Port
import Ulisse.Client.SendSeq
import Ulisse.Client.Sync
import Ulisse.Client.Setup
import Ulisse.Client.Config
import Ulisse.Lib.Sections
import Ulisse.Client.Threads
import Ulisse.Client.Guarded
import Ulisse.Client.Serial
import Ulisse.Lib.Device
import Ulisse.Teensy.DigIo
import Ulisse.Teensy.Eeprom
import Ulisse.Teensy.EepromRoundTrip
import Ulisse.Teensy.EepromLoop
import Ulisse.Teensy.Uart
import Ulisse.Common.Ventry
import Ulisse.EchoServer
import Ulisse.Teensy.Flash
import Ulisse.Teensy.FlashProtocol
import Ulisse.Lib.Machine
import Ulisse.Lib.Thumb
import Ulisse.Teensy.FlashCmd
import Ulisse.Client.Lifecycle
import Ulisse.Host.Options
import Ulisse.Host.Joystick
import Ulisse.Host.Main
import Ulisse.Teensy.EepromSession
import Ulisse.Teensy.Startup
import Ulisse.Teensy.Systime
import Ulisse.EchoText
import Ulisse.Teensy.UartPort
