import Acrobe.Jtag.WalkerEncoder
import Acrobe.Ftdi.JtagRefinement
import Acrobe.Jtag.ChainElision
import Acrobe.Jtag.ChainResults
import Acrobe.BitString.SpareBits
import Acrobe.Batcher
import Acrobe.Bitfield
import Acrobe.Jtag.ChainResetCache
import Acrobe.Stapl.Constants
import Acrobe.Stapl.AcaLength
import Acrobe.Stapl.DemotionSound
import Acrobe.Arm.MemApSound
import Acrobe.BitString.Views
import Acrobe.BitString.Accelerated
import Acrobe.Arm.SwDpAttributed
import Acrobe.Hdlc.Framing
import Acrobe.Checksum.Patch
import Acrobe.Checksum.Registry
import Acrobe.Jop.Codec
import Acrobe.Jop.Errors
import Acrobe.Jop.CaptureFifo
import Acrobe.Nsl.JtagTransactorSound
import Acrobe.Nsl.TransportDelivery
import Acrobe.Nsl.Axi4Matching
import Acrobe.Nsl.Axi4Blobs
import Acrobe.Rtt.Up
import Acrobe.Rtt.DownSound
import Acrobe.Telnet.Pipe
import Acrobe.Telnet.Reads
import Acrobe.Target.Update
import Acrobe.Stapl.Division
import Acrobe.Stapl.RangesRun
import Acrobe.Stapl.SubrangeAssign
import Acrobe.Stapl.LhsAgreement
import Acrobe.Stapl.LeftTokens
import Acrobe.Stapl.ForEmission
import Acrobe.Bnoc.Sized
import Acrobe.Bnoc.Chunked
import Acrobe.Bnoc.Committed
import Acrobe.Stream.Endpoint
import Acrobe.Bnoc.Routed
import Acrobe.Bnoc.Framed
import Acrobe.CmsisDap.SwDp
import Acrobe.Vfs.SaveHex
import Acrobe.Vfs.Uf2
import Acrobe.Wire.Link
import Acrobe.Gdb.FlashPackets
import Acrobe.Gdb.StopReplies
import Acrobe.Jtag.EncoderFailure
import Acrobe.Ftdi.KeepaliveBound
import Acrobe.Ftdi.KeepaliveTransparent
import Acrobe.Vfs.Elf
import Acrobe.Stapl.EmitReading
import Acrobe.Nsl.TransactorSettings
import Acrobe.Nsl.SpiBatching
import Acrobe.Rtt.Scan
import Acrobe.Memory.ChunkTiling
import Acrobe.Memory.SpiFlashErase
import Acrobe.Node.Options
import Acrobe.Arm.RomTable
import Acrobe.Memory.I2cMemSound
import Acrobe.Nsl.ApbAnswers
