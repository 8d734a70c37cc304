import Rellaf.Cpp
import Rellaf.EscapeReader
import Rellaf.Models
import Rellaf.SqlBuilder
import Rellaf.SqlAppend
import Rellaf.Lib.Machine
import Rellaf.MysqlWorker
import Rellaf.SqlStatement
import Rellaf.MysqlTransaction
import Rellaf.MyTxEx
import Rellaf.MysqlStop
import Rellaf.MysqlPool
import Rellaf.Lib.GreedyDescent
import Rellaf.Str
import Rellaf.UrlTrie
import Rellaf.Lib.FirstWins
import Rellaf.UrlRoutes
import Rellaf.UrlPattern
import Rellaf.PathVars
import Rellaf.FunctionMapper
import Rellaf.ServiceRoutes
import Rellaf.SqlPatternText
import Rellaf.JsonToModel
import Rellaf.JsonMembers
import Rellaf.JsonRoundTrip
import Rellaf.JsonNumbers
import Rellaf.ModelCopy
import Rellaf.MysqlResult
import Rellaf.SqlSelect
import Rellaf.LinkList
import Rellaf.LinkQueue
import Rellaf.QueueThreads
import Rellaf.QueueRuns
import Rellaf.HttpEntry
import Rellaf.TxPool
import Rellaf.TxEnd
import Rellaf.PoolSlots
import Rellaf.Lib.PathWalk
import Rellaf.SqlArguments
import Rellaf.SqlWalk
import Rellaf.UrlLanguage
import Rellaf.ModelList
import Rellaf.ModelMove
import Rellaf.PathSpelling
import Rellaf.ModelListCalls
import Rellaf.ModelListAlias
import Rellaf.ObjectHeap
import Rellaf.ObjectKeys
import Rellaf.Lib.Decimal
import Rellaf.PlainNumber
import Rellaf.PlainText
import Rellaf.UrlTraces
import Rellaf.JsonPlaces
import Rellaf.JsonIntegers
import Rellaf.MysqlRows
import Rellaf.SelectList
import Rellaf.TxBegin
import Rellaf.PoolStatements
import Rellaf.Enum
import Rellaf.SqlPatternErrors
import Rellaf.SqlSections
import Rellaf.EscapeBuffer
import Rellaf.LinkListRuns
import Rellaf.Lib.Delimiter
import Rellaf.LatchThreads
import Rellaf.QueueModes
import Rellaf.Lib.Refinement
import Rellaf.QueueHistory
import Rellaf.QueueProgress
import Rellaf.Lib.SqlTokens
import Rellaf.StatementTokens
import Rellaf.PoolProgress
import Rellaf.JsonText
import Rellaf.HttpClient
import Rellaf.PathValues
import Rellaf.UrlTrieMemory
import Rellaf.UrlTrieClear
import Rellaf.Utf8Text
import Rellaf.Lib.QuotedName
import Rellaf.EscapeName
import Rellaf.ObjectRows
import Rellaf.Lib.PairList
import Rellaf.ApiMappings
import Rellaf.QueryParams
import Rellaf.Lib.RoundRobin
import Rellaf.PoolTurns
import Rellaf.PoolResults
