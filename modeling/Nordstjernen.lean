import Nordstjernen.Net.Cache.Theorems.Store
import Nordstjernen.Net.Cookie.Theorems.HttpOnly
import Nordstjernen.Lib.LastWrite
import Nordstjernen.Net.Cookie.Theorems.Interleaving
import Nordstjernen.Streaming.Theorems.Delivery
import Nordstjernen.Layout.Theorems.Table
import Nordstjernen.Layout.Theorems.Grid
import Nordstjernen.Net.Fetch.Theorems.OnBehalf
import Nordstjernen.Css.Theorems.Cascade
import Nordstjernen.Css.Theorems.Container
import Nordstjernen.Css.Theorems.Layers
import Nordstjernen.Css.Theorems.Nesting
import Nordstjernen.Css.Theorems.PropMathExpr
import Nordstjernen.Css.Rollback
import Nordstjernen.Css.Theorems.StyleShare
import Nordstjernen.Css.Media.Theorems.Calc
import Nordstjernen.Css.Media.Theorems.Queries
import Nordstjernen.Net.Cookie.Theorems.Proper
import Nordstjernen.Net.Header.Theorems.Capture
import Nordstjernen.Net.Coalesce.Theorems.Serves
import Nordstjernen.Net.Throttle.Theorems.Dispatch
import Nordstjernen.Net.Multi.Loop
import Nordstjernen.Net.Http2.Theorems.Pool
import Nordstjernen.Net.Http2.Theorems.Known
import Nordstjernen.Net.Http2.Theorems.Transfer
import Nordstjernen.Net.Http2.Theorems.Http1
import Nordstjernen.Css.Gather.Theorems.Exact
import Nordstjernen.Css.Syntax.Theorems.Declarations
import Nordstjernen.Css.Syntax.Theorems.CustomProperties
import Nordstjernen.Css.Syntax.Theorems.Components
import Nordstjernen.Css.Syntax.Theorems.ComponentScan
import Nordstjernen.Dom.Theorems.ClassSet
import Nordstjernen.Dom.Theorems.IdIndex
import Nordstjernen.Dom.Theorems.Indexed
import Nordstjernen.Css.Selector.Theorems.Lists
import Nordstjernen.Css.Selector.Theorems.Nth
import Nordstjernen.Css.Selector.Theorems.Specificity
import Nordstjernen.Net.Cache.Calls
import Nordstjernen.Net.Cache.Theorems.Calls
import Nordstjernen.Net.Cache.Theorems.Keys
import Nordstjernen.Net.Cache.Theorems.Evict
import Nordstjernen.Net.EventSource.Parse
import Nordstjernen.Net.EventSource.Theorems.Parse
import Nordstjernen.Net.EventSource.Theorems.Reconnect
import Nordstjernen.Net.Socket.WebSocket
import Nordstjernen.Net.Socket.Theorems.Frames
import Nordstjernen.Net.Socket.Theorems.WebSocket
import Nordstjernen.Xml.Theorems.Parse
import Nordstjernen.Xml.Theorems.RoundTrip
import Nordstjernen.Dom.Theorems.Clone
import Nordstjernen.Dom.Theorems.Datetime
import Nordstjernen.Dom.Theorems.AttrNames
import Nordstjernen.Dom.FormReset
import Nordstjernen.Dom.Theorems.NodeFree
import Nordstjernen.Dom.EmailInput
import Nordstjernen.Net.ProxyMask
import Nordstjernen.Net.SafeBrowsing
import Nordstjernen.Net.Csp.Theorems.Merge
import Nordstjernen.Net.Csp.Theorems.Sources
import Nordstjernen.Anim.Theorems.Active
import Nordstjernen.Anim.Theorems.History
import Nordstjernen.Layout.Theorems.TrackSizes
import Nordstjernen.Layout.Theorems.AutoRepeat
import Nordstjernen.Layout.Theorems.TableWidths
import Nordstjernen.Layout.Theorems.TableRows
import Nordstjernen.Layout.Theorems.GridLines
import Nordstjernen.Layout.Theorems.GridIndices
import Nordstjernen.Layout.Theorems.Selection
import Nordstjernen.Streaming.Theorems.Dash
import Nordstjernen.Js.Theorems.UrlSearchParams
import Nordstjernen.Streaming.Theorems.Hls
import Nordstjernen.Ext.Theorems.HostIndex
import Nordstjernen.Ext.Theorems.Decide
import Nordstjernen.Ext.Theorems.Pattern
import Nordstjernen.Storage.Theorems.Idb
import Nordstjernen.Storage.Theorems.BytecodeCache
import Nordstjernen.Storage.KeyGenerator
import Nordstjernen.Net.Tracking.Strip
import Nordstjernen.Net.Fetch.Theorems.Trail
import Nordstjernen.Net.Site.SameSite
import Nordstjernen.Net.Refresh.Parse
import Nordstjernen.Net.Hsts.Theorems.Cache
import Nordstjernen.Ipc.Theorems.Http
import Nordstjernen.Ipc.Theorems.Json
import Nordstjernen.Html.Theorems.JsonDocument
import Nordstjernen.Image.Theorems.Ico
