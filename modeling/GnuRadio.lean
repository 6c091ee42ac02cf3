import GnuRadio.Runtime.FlowgraphCalls
import GnuRadio.Runtime.TopologicalSort
import GnuRadio.Runtime.TpbStreams
import GnuRadio.Usrp.FusbRuns
import GnuRadio.Usrp2.Bsm12
import GnuRadio.Usrp2.Dbsm
import GnuRadio.Trellis.Sccc
import GnuRadio.Runtime.Reconfiguration
import GnuRadio.Packet.PacketSink
import GnuRadio.Packet.RoundTrip
import GnuRadio.Ofdm.MapperRuns
import GnuRadio.Ofdm.FrameSinkRuns
import GnuRadio.Trellis.PcccDecisions
import GnuRadio.Usrp2.HostRxRuns
import GnuRadio.Filter.FirSimd
import GnuRadio.Filter.FftFilter
import GnuRadio.Ofdm.Carriers
import GnuRadio.Gengen.PackedUnpacked
import GnuRadio.Pager.FlexParse
import GnuRadio.Usrp2.PendingReplies
import GnuRadio.Runtime.TopBlock
import GnuRadio.Runtime.WorkDemands
import GnuRadio.Trellis.Termination
import GnuRadio.Trellis.ConvolutionalFsm
import GnuRadio.Trellis.Viterbi
import GnuRadio.Pmt.Canonical
import GnuRadio.Usrp2.EthBuffer
import GnuRadio.Atsc.TrellisRoundTrip
import GnuRadio.Runtime.DisconnectBlock
import GnuRadio.Runtime.MsgQueue
import GnuRadio.Io.WavfileSink
import GnuRadio.Pmt.Dict
import GnuRadio.Pmt.SymbolTable
import GnuRadio.Packet.CorrelateAccessCode
import GnuRadio.Packet.CrcDivision
import GnuRadio.General.Lfsr
import GnuRadio.General.CircularFile
import GnuRadio.Ofdm.InsertPreamble
import GnuRadio.Ofdm.Sampler
import GnuRadio.Packet.SimpleCorrelator
import GnuRadio.General.StreamMux
import GnuRadio.Io.MessageSource
import GnuRadio.Io.TaggedFileSink
import GnuRadio.Filter.ResamplerForecast
import GnuRadio.Usrp.CircularBuffer
import GnuRadio.Usrp2.TxRaw
import GnuRadio.Filter.PfbChannelizer
import GnuRadio.Gcell.EaArgs
import GnuRadio.Io.OscopeRecords
import GnuRadio.Pager.FlexFrames
import GnuRadio.Atsc.FieldSyncDemux
import GnuRadio.Atsc.FieldSyncMux
import GnuRadio.Atsc.SlidingCorrelator
import GnuRadio.Trellis.RandomInterleaver
import GnuRadio.Grc.SortVariables
import GnuRadio.Grc.ExprReplace
import GnuRadio.Grc.Odict
import GnuRadio.Grc.ParseXml
import GnuRadio.Usrp.CircularLinkedList
import GnuRadio.Pmt.Pool
import GnuRadio.Filter.Iir
import GnuRadio.Io.FileSource
import GnuRadio.Filter.FractionalInterpolator
import GnuRadio.Filter.PfbInterpolator
import GnuRadio.Noaa.HrptDeframer
import GnuRadio.Runtime.TagRates
import GnuRadio.General.AlignOnSamplenumbers
