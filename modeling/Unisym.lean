import Unisym.Mempool.PageRuns
import Unisym.Mempool.HeapBooks
import Unisym.Mempool.PageAgreement
import Unisym.Fat.Enumer
import Unisym.Fat.ShortName
import Unisym.Datype.BmMemoman
import Unisym.Datype.Queue
import Unisym.Device.RequestQueue
import Unisym.Device.PartitionSpec
import Unisym.Datype.DchainSpec
import Unisym.Datype.VectorSpec
import Unisym.Datype.ChainSpec
import Unisym.Device.LayerManagerSpec
import Unisym.Network.DHCPSpec
import Unisym.Network.PacketSpec
import Unisym.Lango.CloverReprint
import Unisym.Lango.RecordLayoutSpec
import Unisym.Lango.RiscvLabels
import Unisym.Lango.RiscvEncoderSpec
import Unisym.Device.HIDReportLayoutSpec
import Unisym.Disc.ISO9660Spec
import Unisym.Picture.GIFLoop
import Unisym.Device.XHCIEventRingSpec
import Unisym.IsoStd.SharedPtrRuns
import Unisym.Audiosys.ResamplerSpec
import Unisym.Witch.TextBoxRuns
import Unisym.Text.StringSearch
import Unisym.Text.UTF32
import Unisym.Algorithm.SortSpec
import Unisym.Text.StringLiteral
import Unisym.Device.AMLExecutor
import Unisym.Device.BlockTrait
import Unisym.Text.ChrHex
import Unisym.Paging.MemCopyP
import Unisym.Datype.NnodeDivide
import Unisym.Text.OutFormatInteger
import Unisym.Format.JsonExact
import Unisym.Text.CommentTokens
import Unisym.Text.KeptText
import Unisym.Network.HTTPSpec
import Unisym.Text.StrReplaceSpec
import Unisym.Text.StrToken
import Unisym.Picture.PNGFilter
import Unisym.Audiosys.FLAC
import Unisym.Datime.Datime
import Unisym.Text.CscUTF
