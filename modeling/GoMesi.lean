import GoMesi.C.Block
import GoMesi.C.Integer
import GoMesi.Caching.Lru
import GoMesi.Go.Decimal
import GoMesi.Go.Fields
import GoMesi.Go.Float64
import GoMesi.Go.Json
import GoMesi.Go.NetIP
import GoMesi.Go.Strconv
import GoMesi.Go.Strings
import GoMesi.Go.Utf8
import GoMesi.Go.Utf8Valid
import GoMesi.Interleaving.Ghost
import GoMesi.Interleaving.Matching
import GoMesi.Interleaving.Pool
import GoMesi.Interleaving.Prog
import GoMesi.Interleaving.Run
import GoMesi.Interleaving.Serial
import GoMesi.Interleaving.Workers
import GoMesi.Mesi.Attributes
import GoMesi.Mesi.Blocks
import GoMesi.Mesi.Budget
import GoMesi.Mesi.CacheExpiry
import GoMesi.Mesi.CacheKey
import GoMesi.Mesi.CacheKeyLegal
import GoMesi.Mesi.CacheKeyTemplate
import GoMesi.Mesi.CacheTransparency
import GoMesi.Mesi.ChooseBlock
import GoMesi.Mesi.ChooseRender
import GoMesi.Mesi.Concurrency
import GoMesi.Mesi.Config
import GoMesi.Mesi.Dedup
import GoMesi.Mesi.Depth
import GoMesi.Mesi.Fetch
import GoMesi.Mesi.FetchMode
import GoMesi.Mesi.FragmentBudget
import GoMesi.Mesi.Include
import GoMesi.Mesi.IncludeElement
import GoMesi.Mesi.Inflight
import GoMesi.Mesi.InlineBlock
import GoMesi.Mesi.Markup
import GoMesi.Mesi.MemoryCache
import GoMesi.Mesi.Nesting
import GoMesi.Mesi.Operations
import GoMesi.Mesi.Parser
import GoMesi.Mesi.Policy
import GoMesi.Mesi.Relocation
import GoMesi.Mesi.RenderLogic
import GoMesi.Mesi.RenderTwin
import GoMesi.Mesi.Scope
import GoMesi.Mesi.Siblings
import GoMesi.Mesi.Simulate
import GoMesi.Mesi.SizeCap
import GoMesi.Mesi.Ssrf
import GoMesi.Mesi.TagSearch
import GoMesi.Mesi.TokenStream
import GoMesi.Mesi.Tokenizer
import GoMesi.Mesi.Variables
import GoMesi.Mesi.Vars
import GoMesi.Mesi.WhenTest
import GoMesi.Mesi.Whitelist
import GoMesi.Mesi.WorkerPool
import GoMesi.Mesi.World
import GoMesi.Middleware.ResponseWriter
import GoMesi.Servers.AllowedHosts
import GoMesi.Servers.Apache
import GoMesi.Servers.ApacheBuffer
import GoMesi.Servers.ApacheFilter
import GoMesi.Servers.CBodies
import GoMesi.Servers.CacheConfig
import GoMesi.Servers.Cookies
import GoMesi.Servers.Directives
import GoMesi.Servers.EdgeControl
import GoMesi.Servers.Libgomesi
import GoMesi.Servers.NginxBlobs
import GoMesi.Servers.NginxBuffers
import GoMesi.Servers.NginxCache
import GoMesi.Servers.NginxCacheConfig
import GoMesi.Servers.NginxFilter
import GoMesi.Servers.ParseBlobs
import GoMesi.Servers.ParseConfig
import GoMesi.Servers.PhpBuffers
import GoMesi.Servers.PhpCache
import GoMesi.Servers.PhpCacheConfig
import GoMesi.Servers.PhpContext
import GoMesi.Servers.PhpParse
import GoMesi.Servers.PhpProcess
import GoMesi.Servers.Proxy
import GoMesi.Servers.RequestContext
import GoMesi.Servers.RequestJson
import GoMesi.Servers.RequestKey
