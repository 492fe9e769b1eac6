import SystemCore.Adb.Fdevent
import SystemCore.Fastboot.UsbBuffer
import SystemCore.FsMgr.MountFlags
import SystemCore.FsMgr.VerityMetadata
import SystemCore.Init.LoadProperties
import SystemCore.Init.PropertyTriggers
import SystemCore.Leproperties.PersistReload
import SystemCore.Leproperties.ReadOnly
import SystemCore.Leproperties.RemoveNode
import SystemCore.Liblog.LogEntry
import SystemCore.Libmincrypt.DsaSig
import SystemCore.Libnetutils.DhcpClient
import SystemCore.Libnetutils.ReceivedLength
import SystemCore.Libsparse.Decoding
import SystemCore.Libsparse.ImportSafety
import SystemCore.Libsparse.ResparseTwice
import SystemCore.Libsparse.RoundTrip
import SystemCore.Libsysutils.ClientReads
import SystemCore.Libutils.BlobFlatten
import SystemCore.Libutils.LinearComplete
import SystemCore.Libutils.LooperDelivery
import SystemCore.Libutils.LruPresent
import SystemCore.Libutils.PropertyMap
import SystemCore.Libutils.String8Remove
import SystemCore.Libutils.UnicodeBounded
import SystemCore.Libutils.UnicodeCompare
import SystemCore.Libziparchive.ParseBounds
import SystemCore.Libziparchive.Placement
import SystemCore.Lmkd.Victim
import SystemCore.Logd.Clearing
import SystemCore.Logd.Following
import SystemCore.Logd.PruneRules
import SystemCore.Logd.TailDump
import SystemCore.Logd.Tracking
import SystemCore.RunAs.DataPath
import SystemCore.Sdcard.NodePath
