import Asenal.Sat.Solver
import Asenal.Sat.ReadBack
import Asenal.Sat.Rereading
import Asenal.Pack.RoundTrip
import Asenal.Pack.Agreement
import Asenal.Pack.Access
import Asenal.Pack.PlainWrite
import Asenal.Pack.EndMarker
import Asenal.Comlog.AsyncFile
import Asenal.Comlog.Fallback
import Asenal.Comlog.Framed
import Asenal.Comlog.Order
import Asenal.Comlog.HashSaved
import Asenal.Comlog.Deque
import Asenal.Comlog.Category
import Asenal.Comlog.Quota
import Asenal.Comlog.LogNames
import Asenal.Comlog.NameMg
import Asenal.Comlog.Server
import Asenal.Comlog.ServerName
import Asenal.Comlog.Truncation
import Asenal.Comlog.PoolRounding
import Asenal.Comlog.PoolReset
import Asenal.Comlog.ServerList
import Asenal.Comlog.SelfLog
import Asenal.Comlog.LogHead
import Asenal.Comlog.CategoryTree
import Asenal.Circle.Buffer
import Asenal.Lisp.Exact
import Asenal.Conf.RoundTrip
import Asenal.Conf.Comments
import Asenal.Conf.Include
import Asenal.Conf.Values
import Asenal.Conf.Table
import Asenal.Conf.LastLine
import Asenal.Conf.Continuation
import Asenal.Http.Chunked
import Asenal.Tick.Relay
import Asenal.Tick.Packet
import Asenal.Tick.Datagram
import Asenal.Tick.BaseConf
import Asenal.Tmp.Writable
import Asenal.Url.Family
import Asenal.Url.Idempotent
import Asenal.Url.Normalized
import Asenal.Url.SchemeCase
import Asenal.Url.LinkPath
import Asenal.Url.FixedArrays
import Asenal.Url.Fragment
import Asenal.Url.Domain
import Asenal.Url.Recovery
import Asenal.Url.SiteIp
import Asenal.Url.Trunk
import Asenal.Ul.CaseCompare
import Asenal.Ul.HtmlTag
import Asenal.Ul.FileInfo
import Asenal.Ul.Strlcpy
import Asenal.Ul.AnchorText
import Asenal.Ul.FullPath
import Asenal.Ternary.Tree
import Asenal.Acm.GetNext
import Asenal.Acm.StrStr
import Asenal.Acm.AnalysisQuery
import Asenal.Acm.BuildTree
import Asenal.Acm.FindMin
import Asenal.Acm.Postorder
import Asenal.Acm.Flatten
import Asenal.Acm.GetInter
import Asenal.Acm.LadderLength
import Asenal.Acm.Exist
import Asenal.Acm.InsertInterval
import Asenal.Topcoder.NumberGame
import Asenal.Topcoder.SkiResortsEasy
import Asenal.Ad.Asn1Safe
import Asenal.Ad.LdapResult
