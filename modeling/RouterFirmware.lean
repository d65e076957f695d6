import RouterFirmware.Lib.Run
import RouterFirmware.Lib.CMem
import RouterFirmware.Nvram.Store
import RouterFirmware.Nvram.Refine
import RouterFirmware.Bcm.Utils
import RouterFirmware.Bcm.Vlans
import RouterFirmware.Lib.Crc
import RouterFirmware.Bcm.Crc
import RouterFirmware.Bcm.Tlvs
import RouterFirmware.Bcm.Pktcopy
import RouterFirmware.Nvram.Image
import RouterFirmware.Nvram.Checksum
import RouterFirmware.Nvram.Commit
import RouterFirmware.Nvram.Survive
import RouterFirmware.Nvram.RoundTrip
import RouterFirmware.Lib.Flash
import RouterFirmware.Nvram.Flash
import RouterFirmware.Bcm.Pktq
import RouterFirmware.Bcm.Fifos
import RouterFirmware.Bcm.PktqRefine
import RouterFirmware.Dma.Ring
import RouterFirmware.Lib.Ring
import RouterFirmware.Dma.Tx
import RouterFirmware.Dma.Rx
import RouterFirmware.Dma.Giant
import RouterFirmware.Dma.Descriptors
import RouterFirmware.Dma.Rotate
import RouterFirmware.Lib.Delta
import RouterFirmware.Lib.Timeval
import RouterFirmware.Timer.Queue
import RouterFirmware.Timer.Deadlines
import RouterFirmware.Timer.Settime
import RouterFirmware.Timer.Cancel
import RouterFirmware.Timer.Handler
import RouterFirmware.Timer.Owner
import RouterFirmware.Netconf.Fw
import RouterFirmware.Netconf.Faithful
import RouterFirmware.Netconf.Find
import RouterFirmware.Netconf.Order
import RouterFirmware.Lib.Text
import RouterFirmware.Nvparse.Records
import RouterFirmware.Nvparse.RoundTrip
import RouterFirmware.Nvparse.Client
import RouterFirmware.Lib.Stage
import RouterFirmware.Nvparse.Convert
import RouterFirmware.Nvparse.Frames
import RouterFirmware.Nvparse.Asserts
import RouterFirmware.Nvparse.Idempotent
import RouterFirmware.Nvparse.Entries
import RouterFirmware.Nvparse.Meaning
import RouterFirmware.Nvparse.Migrate
import RouterFirmware.Nvram.ReadOnly
import RouterFirmware.Otp.Agree
import RouterFirmware.Rc.Mtd
import RouterFirmware.Lib.Slots
import RouterFirmware.Lib.Upsert
import RouterFirmware.Igd.Mapmgr
import RouterFirmware.Igd.Ipt
import RouterFirmware.Igd.Delete
import RouterFirmware.Lib.Octets
import RouterFirmware.Igd.IpConfig
import RouterFirmware.Lib.Parse
import RouterFirmware.Upnp.Gena
import RouterFirmware.Upnp.Events
import RouterFirmware.Upnp.Lifetime
import RouterFirmware.Lib.Search
import RouterFirmware.Lib.InPlace
import RouterFirmware.Upnp.SplitUrl
import RouterFirmware.Lib.Path
import RouterFirmware.Upnp.Http
import RouterFirmware.Upnp.Framing
import RouterFirmware.Upnp.Soap
import RouterFirmware.Upnp.SoapAction
import RouterFirmware.Upnp.SoapRequest
import RouterFirmware.Upnp.Uio
import RouterFirmware.Lib.Forest
import RouterFirmware.Upnp.Device
import RouterFirmware.Httpd.Login
import RouterFirmware.Httpd.Request
import RouterFirmware.Httpd.Profile
import RouterFirmware.Httpd.Networks
import RouterFirmware.Httpd.Groups
import RouterFirmware.Lib.Percent
import RouterFirmware.Httpd.Ascii
import RouterFirmware.Httpd.Cgi
import RouterFirmware.Httpd.Call
import RouterFirmware.Httpd.Page
import RouterFirmware.Httpd.Headers
import RouterFirmware.Httpd.Upgrade
import RouterFirmware.Httpd.Variables
import RouterFirmware.Httpd.Scan
import RouterFirmware.Httpd.Apply
import RouterFirmware.Httpd.Paths
import RouterFirmware.Lib.Base64
import RouterFirmware.Httpd.Base64
import RouterFirmware.Infosvr.Packet
import RouterFirmware.Infosvr.Transactions
import RouterFirmware.Infosvr.Addressed
import RouterFirmware.Nvram.Backup
import RouterFirmware.Nvram.Restore
import RouterFirmware.Lib.Chain
import RouterFirmware.Rc.Rules
import RouterFirmware.Rc.Firewall
import RouterFirmware.Rc.LanPolicy
import RouterFirmware.Rc.WanPolicy
import RouterFirmware.Rc.UpnpForward
import RouterFirmware.Rc.PortTrigger
import RouterFirmware.Rc.Addresses
import RouterFirmware.Rc.Watchdog
import RouterFirmware.Et.Interrupts
import RouterFirmware.Et.Transmit
import RouterFirmware.Sflash.Driver
import RouterFirmware.Sflash.Mtd
import RouterFirmware.Lib.Steps
import RouterFirmware.Sflash.Commit
import RouterFirmware.Lib.Fuel
import RouterFirmware.Sflash.Uint
import RouterFirmware.Nvram.FlashWrite
import RouterFirmware.Nvram.Flashutl
import RouterFirmware.Nvram.Rw
import RouterFirmware.Nvram.Mapping
import RouterFirmware.Lib.Orbit
import RouterFirmware.Bcm.Partitions
import RouterFirmware.Nvram.AnyFile
import RouterFirmware.Infosvr.Bounds
import RouterFirmware.Lib.Pool
import RouterFirmware.Rc.Buffers
import RouterFirmware.Nvram.Getall
import RouterFirmware.Otp.Passed
import RouterFirmware.Nvram.Cfe
import RouterFirmware.Lib.Copy
import RouterFirmware.Bcm.Memmove
import RouterFirmware.Bcm.Vsnprintf
import RouterFirmware.Lib.Number
import RouterFirmware.Bcm.Strtoul
import RouterFirmware.Bcm.EtherAddr
import RouterFirmware.Bcm.Chanspec
import RouterFirmware.Bcm.Srom
import RouterFirmware.Lib.StringTable
import RouterFirmware.Bcm.SromVars
import RouterFirmware.Bcm.Cis
import RouterFirmware.Lib.Glob
import RouterFirmware.Httpd.Glob
import RouterFirmware.Timer.Rounding
import RouterFirmware.Timer.Normal
import RouterFirmware.Httpd.BasicAuth
import RouterFirmware.Ifname.Unit
import RouterFirmware.Lib.Words
import RouterFirmware.Ifname.NameList
import RouterFirmware.Lib.Field
import RouterFirmware.Nvparse.Wds
import RouterFirmware.Lib.Keyed
import RouterFirmware.Udhcpd.Options
import RouterFirmware.Udhcpd.Leases
import RouterFirmware.Udhcpd.Exclusive
import RouterFirmware.Udhcpd.Restart
