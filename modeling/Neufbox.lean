import Neufbox.RingBuffer.Device
import Neufbox.RingBuffer.RetainedLog
import Neufbox.RingBuffer.ReadSafety
import Neufbox.RingBuffer.ReaderIndependence
import Neufbox.Nvram.Table
import Neufbox.Nvram.Image
import Neufbox.Nvram.RoundTrip
import Neufbox.Nvram.Bounds
import Neufbox.Nvram.CommitKeeps
import Neufbox.Nvram.Cli
import Neufbox.Nvram.Staging
import Neufbox.Nvram.Checksum
import Neufbox.Ead.Crypt
import Neufbox.Ead.ReplayWindow
import Neufbox.Ead.Server
import Neufbox.Ead.AuthOrder
import Neufbox.Ead.Codec
import Neufbox.Ead.Network
import Neufbox.Ead.CommandAuthenticity
import Neufbox.Ead.Messages
import Neufbox.Ead.Reply
import Neufbox.Ead.Bounds
import Neufbox.Ead.ClientBounds
import Neufbox.Wprobe.Dump
import Neufbox.Wprobe.Snapshots
import Neufbox.Wprobe.Statistics
import Neufbox.Wprobe.Reset
import Neufbox.Wprobe.LinkList
import Neufbox.ImageTag.Tag
import Neufbox.ImageTag.TagDescribes
import Neufbox.ImageTag.MkFirmware
import Neufbox.ImageTag.FlashLayout
import Neufbox.ImageTag.CfePartitions
import Neufbox.Trx.Tool
import Neufbox.Trx.Layout
import Neufbox.FirmwareUtils.Args
import Neufbox.FirmwareUtils.NandEcc
import Neufbox.FirmwareUtils.Ptgen
import Neufbox.Mylofw.Tool
import Neufbox.Mylofw.Write
import Neufbox.Mylofw.Decodable
import Neufbox.Mylofw.PartitionTable
import Neufbox.Srec.Format
import Neufbox.Srec.Tool
import Neufbox.Srec.Text
import Neufbox.Srec.Preserves
import Neufbox.Jffs2.Node
import Neufbox.Jffs2.Append
import Neufbox.Jffs2.Emitted
import Neufbox.Jffs2.Consistency
import Neufbox.Jffs2.Layout
import Neufbox.Jffs2.AppendLayout
import Neufbox.Jffs2.ImageWrite
import Neufbox.Jffs2.ScanBounds
import Neufbox.Jffs2.Lookup
import Neufbox.Mtd.Write
import Neufbox.Mtd.ImageCopy
import Neufbox.Wprobe.LinkDump
import Neufbox.Board.GpioPoll
import Neufbox.Events.Queue
import Neufbox.Leds.Device
import Neufbox.Leds.Excursion
import Neufbox.Leds.Interleaving
import Neufbox.Leds.ShiftRegister
import Neufbox.Leds.MorseTrigger
import Neufbox.Leds.NetdevTrigger
import Neufbox.Leds.NetdevRefs
import Neufbox.Kconfig.Config
import Neufbox.Kconfig.Text
import Neufbox.Kconfig.Runs
import Neufbox.Swconfig.Requests
import Neufbox.Swconfig.Discipline
import Neufbox.Swconfig.Dump
import Neufbox.Swconfig.Uci
import Neufbox.Swconfig.UciExact
import Neufbox.Ar8216.Driver
import Neufbox.Ar8216.Apply
import Neufbox.Ar8216.Isolation
import Neufbox.Ar8216.VlanIds
import Neufbox.Ar8216.PortLists
import Neufbox.Ar8216.Ranges
import Neufbox.Ip175c.Registers
import Neufbox.Ip175c.Codec
import Neufbox.Ip175c.RoundTrip
import Neufbox.Ip175c.Membership
import Neufbox.Packages.Metadata
import Neufbox.Packages.BuildOrder
import Neufbox.Packages.BuildComplete
import Neufbox.Packages.Feeds
import Neufbox.Packages.FeedClosure
import Neufbox.Packages.FeedOrder
import Neufbox.Siit.Translate
import Neufbox.Siit.RoundTrip
import Neufbox.Siit.Bounds
import Neufbox.Siit.ErrorLength
import Neufbox.Siit.Extensions
import Neufbox.Siit.BoundsBack
import Neufbox.Enet.Descriptor
import Neufbox.Enet.Transmit
import Neufbox.Enet.TransmitRing
import Neufbox.Enet.FlowControl
import Neufbox.Enet.Receive
import Neufbox.Enet.ReceiveRing
import Neufbox.Zynos.Tool
import Neufbox.Zynos.Write
import Neufbox.Zynos.Layout
import Neufbox.Csys.Tool
import Neufbox.Csys.Write
import Neufbox.Csys.Blocks
import Neufbox.Csys.Prepared
import Neufbox.Csys.Layout
import Neufbox.Siit.Written
import Neufbox.Siit.HostOrder
import Neufbox.Siit.Transport
import Neufbox.Siit.Fragment
import Neufbox.Siit.Reassembly
import Neufbox.Siit.UdpChecksum
import Neufbox.BaseFiles.Ipcalc
import Neufbox.Qos.TcRules
import Neufbox.Mylofw.FlashBounds
import Neufbox.Swconfig.PortString
import Neufbox.Switch.ParseVlan
import Neufbox.Packages.KconfigOverrides
import Neufbox.Library.Seek
import Neufbox.Library.Comparator
import Neufbox.Packages.Menus
import Neufbox.Packages.MenuOrder
import Neufbox.Library.Traverse
import Neufbox.Packages.MconfDepends
import Neufbox.Packages.MconfLines
import Neufbox.Library.Pairs
import Neufbox.Library.Emission
import Neufbox.Library.HostWords
import Neufbox.Ucmb.Driver
import Neufbox.Ucmb.Codec
import Neufbox.Mtd.TrxFixup
import Neufbox.Zynos.Checksum
import Neufbox.Csys.Checksum
import Neufbox.Library.ByteWords
import Neufbox.Library.Rijndael
import Neufbox.Ead.Aes
import Neufbox.Ead.AesCipher
import Neufbox.Library.Absorb
import Neufbox.Library.Sha1
import Neufbox.Ead.Sha
import Neufbox.Ead.TinySha
import Neufbox.Ead.TinyShaStream
import Neufbox.Bignum.ModExp
import Neufbox.Ead.Srp
import Neufbox.Ead.SrpAgree
import Neufbox.Library.Radix
import Neufbox.Bignum.Words
import Neufbox.Bignum.Arith
import Neufbox.Bignum.Product
import Neufbox.Bignum.Shift
import Neufbox.Bignum.DivWords
import Neufbox.Bignum.Div
import Neufbox.Bignum.ModExpWords
import Neufbox.Bignum.Bytes
import Neufbox.Ead.SrpWords
