import Libki.Util.BitStream
import Libki.Pclass.Codec
import Libki.Pclass.Value.Equations
import Libki.Pclass.Value.Registry
import Libki.Pclass.Value.Run
import Libki.Pclass.Value.Ownership
import Libki.Pclass.Type.Equations
import Libki.Pclass.Type.Inheritance
import Libki.Pclass.Caster.Integral
import Libki.Util.ValueBytes
import Libki.Dml.WStrField
import Libki.Util.Codecvt
import Libki.Dml.ValueString
import Libki.Protocol.Packet
import Libki.Pclass.Caster.Declarer
