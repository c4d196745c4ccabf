import TorrServer.Settings.ReadCache
import TorrServer.Settings.BTSets
import TorrServer.Torr.FileStats
import TorrServer.Torrshash.Pack
import TorrServer.Gstreamer.Mp4.Delivery
import TorrServer.Settings.Torrents
import TorrServer.Settings.ViewedCalls
import TorrServer.Torr.Trackers
import TorrServer.Torrstor.Shield
import TorrServer.Torrstor.Idle
import TorrServer.Torrstor.Clean
import TorrServer.Gstreamer.Mp4.Seek
import TorrServer.Gstreamer.Mp4.Payload
import TorrServer.Gstreamer.Mp4.Chunking
import TorrServer.Gstreamer.Mp4.CutErrors
import TorrServer.Gstreamer.Mp4.Hints
import TorrServer.Gstreamer.Mp4.VideoCut
import TorrServer.Gstreamer.Mp4.ByteRange
import TorrServer.Settings.JsonDB
import TorrServer.Gstreamer.Service
import TorrServer.Rutor.Index
import TorrServer.Settings.Router
import TorrServer.Mcp.Unwatched
import TorrServer.Rutor.Load
import TorrServer.Gstreamer.Cue
import TorrServer.Gstreamer.Subtitles
import TorrServer.Settings.SyncViewed
import TorrServer.Waf.RefererRules
import TorrServer.Torrfs.Reach
import TorrServer.Gstreamer.Mp4.SegmentTimes
import TorrServer.Gstreamer.Mp4.InitBox
import TorrServer.Gstreamer.SubtitleWait
import TorrServer.Torrstor.Priority
