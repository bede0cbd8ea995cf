import Stcbsl.Scanner
import Stcbsl.Frame
import Stcbsl.Receiver
import Stcbsl.Stream
import Stcbsl.OneChange
import Stcbsl.Corruption
import Stcbsl.Conservation
import Stcbsl.Session
import Stcbsl.SessionSafety
import Stcbsl.TraceLaw
import Stcbsl.ReplyLaw
import Stcbsl.Stc89
import Stcbsl.BaudArithmetic
import Stcbsl.ProtocolOrder
import Stcbsl.StatusPacket
import Stcbsl.Overwrite
import Stcbsl.Device
import Stcbsl.CodeFlash
import Stcbsl.BlockIntegrity
import Stcbsl.Explain
import Stcbsl.Text
import Stcbsl.IntelHex
import Stcbsl.HexRecord
import Stcbsl.HexImage
import Stcbsl.HexGrammar
import Stcbsl.HexExtent
import Stcbsl.HexDamage
import Stcbsl.Traced
import Stcbsl.Driver
import Stcbsl.Handshake
import Stcbsl.Draining
import Stcbsl.Course
import Stcbsl.RunReport
import Stcbsl.StatusShape
import Stcbsl.Freshness
import Stcbsl.BaudDiscipline
import Stcbsl.NoiseTransparency
import Stcbsl.Contract
import Stcbsl.Calls
import Stcbsl.Cadence
import Stcbsl.Numerals
import Stcbsl.Traversal
import Stcbsl.Messages
import Stcbsl.Arguments
import Stcbsl.Command
import Stcbsl.Conduct
import Stcbsl.Interruption
import Stcbsl.EndToEnd
import Stcbsl.Loops
import Stcbsl.Causes
import Stcbsl.Deadlines
import Stcbsl.Transcript
import Stcbsl.Forecast
