import Guardwatch.Threads.Lifetimes
import Guardwatch.Gfc.LogRotation
import Guardwatch.Gfc.ContainerLedger
import Guardwatch.Gfc.GcGrowth
import Guardwatch.Gfc.MapMemory
import Guardwatch.Gfc.MapIterate
import Guardwatch.Gfc.MapTermination
import Guardwatch.Gfc.ListSort
import Guardwatch.Gfc.Btree
import Guardwatch.Gfc.Ring
import Guardwatch.Gfc.LruLeast
import Guardwatch.Gfc.WsBounds
import Guardwatch.Gfc.WsSend
import Guardwatch.Gfc.Mt
import Guardwatch.Gfc.Base64Lines
import Guardwatch.Gfc.Utf8Initial
import Guardwatch.Gfc.FsRemove
import Guardwatch.Gfc.FsMkdirs
import Guardwatch.Agent.Settings
import Guardwatch.Agent.Acknowledge
import Guardwatch.Agent.Replies
import Guardwatch.Agent.Bounds
import Guardwatch.Agent.Isolation
import Guardwatch.Agent.Metrics
import Guardwatch.Agent.Meminfo
import Guardwatch.Agent.Processors
import Guardwatch.Mustach.Converse
import Guardwatch.Mustach.Escape
import Guardwatch.Mustach.Sql
import Guardwatch.Agent.Service
import Guardwatch.Mongoose.Reassembly
import Guardwatch.Gfc.Sha1Digest
import Guardwatch.Mongoose.WebPath
