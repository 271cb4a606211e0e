import Veda.Authorization.AzServer
import Veda.Authorization.Reach
import Veda.Authorization.RightSet
import Veda.Authorization.AzBatch
import Veda.Bj8individual.CborBounds
import Veda.Bj8individual.CborIndividual
import Veda.Bj8individual.Compare
import Veda.Bj8individual.Delta
import Veda.Bj8individual.IndividualJson
import Veda.Bj8individual.MsgpackIndividual
import Veda.Bj8individual.StoredWhole
import Veda.Ccus.SubscribeManager
import Veda.Ccus.QueueReader
import Veda.Docflow.JoinsOnce
import Veda.Docflow.TakenOnce
import Veda.Docflow.WorkItemResult
import Veda.Input.Install
import Veda.Input.Recorded
import Veda.Input.Rollback
import Veda.Input.Uninstall
import Veda.Common.Decimal
import Veda.Core.ExactlyOnce
import Veda.Core.GetTicket
import Veda.Core.Literals
import Veda.Gluecode.ConcurrentAdd
import Veda.Gluecode.ScriptsOrder
import Veda.Gluecode.VisitsOnce
import Veda.Gluecode.SuperClasses
import Veda.FtIndexer.Databases
import Veda.FtIndexer.OtherDocuments
import Veda.FtIndexer.Documents
import Veda.FtIndexer.Slots
import Veda.Gowebserver.Ticket
import Veda.Mstorage.AclEvents
import Veda.Mstorage.AclManager
import Veda.Mstorage.Commit
import Veda.Mstorage.OpIds
import Veda.Mstorage.Rights
import Veda.Mstorage.Secrets
import Veda.Mstorage.AclFrame
import Veda.Mstorage.UpdateCounter
import Veda.Numeration.Canonical
import Veda.Numeration.UniqueNumbers
import Veda.Onto.Runs
import Veda.Onto.Ends
import Veda.Queue.Fifo
import Veda.Queue.PartialReads
import Veda.Queue.VPartSwitch
import Veda.Queue.InfoMatch
import Veda.Search.GoodToken
import Veda.Search.GreaterEqual
import Veda.Search.InPlace
import Veda.Search.Paging
import Veda.Search.ParseSafety
import Veda.Search.Translation
import Veda.Storage.LmdbDriver
import Veda.Util.Cache
import Veda.Util.ModuleInfo
import Veda.Vmodule.BadMessage
import Veda.Vmodule.HandledOnce
import Veda.VOnto.LazyReading
import Veda.V8d.WrittenBack
import Veda.Browser.UpdateService
import Veda.Mstorage.StatementsDecide
import Veda.Gowebserver.TtRecord
import Veda.Gluecode.Cascade
import Veda.Fanout.Exported
import Veda.Browser.ClassTree
