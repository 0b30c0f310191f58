import Otp.Lists.UniqueCorrect
import Otp.Ets.HashRun
import Otp.Ets.TreeReachable
import Otp.Dets.AllocSafety
import Otp.Dets.BplusRefinement
import Otp.DiskLog.Repair
import Otp.Mnesia.FragSafety
import Otp.Big.BitwiseExact
import Otp.Big.MultiplyExact
import Otp.Beam.OperandLoaded
import Otp.Asn1.BerSelective
import Otp.Inet.PacketFraming
import Otp.Inets.HttpChunkCoding
import Otp.Stdlib.GbTreesBalance
import Otp.Stdlib.GbTreesIterator
import Otp.Stdlib.ArrayAgree
import Otp.Stdlib.ArrayResize
import Otp.Stdlib.DictRun
import Otp.Stdlib.StatemQueue
import Otp.Stdlib.SupervisorIntensity
import Otp.Stdlib.SupervisorOrdered
import Otp.Stdlib.CalendarWeek
import Otp.Stdlib.Base64
import Otp.Stdlib.Rand
