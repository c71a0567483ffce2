import SmithSnmp.Lib.Lex
import SmithSnmp.Lib.Ring
import SmithSnmp.Lib.Traced
import SmithSnmp.Lib.Cursor
import SmithSnmp.Lib.Journal
import SmithSnmp.Lib.Tlv
import SmithSnmp.Lib.Runs
import SmithSnmp.Lib.Shift
import SmithSnmp.Lib.Successor
import SmithSnmp.Lib.Prefix
import SmithSnmp.Lib.Framing
import SmithSnmp.Lib.Loops
import SmithSnmp.Lib.Base128
import SmithSnmp.Oid
import SmithSnmp.OidOrder
import SmithSnmp.MibTree
import SmithSnmp.MibArrays
import SmithSnmp.MibCapacity
import SmithSnmp.Asn1
import SmithSnmp.Words
import SmithSnmp.Ber
import SmithSnmp.MibView
import SmithSnmp.Revocation
import SmithSnmp.ViewHeap
import SmithSnmp.ViewMemory
import SmithSnmp.Datagram
import SmithSnmp.MibSearch
import SmithSnmp.MsgProc
import SmithSnmp.MibPaths
import SmithSnmp.MibTraversal
import SmithSnmp.MibNext
import SmithSnmp.MibBacklog
import SmithSnmp.MsgViews
import SmithSnmp.CanonicalViews
import SmithSnmp.Walk
import SmithSnmp.MsgTrace
import SmithSnmp.InView
import SmithSnmp.Registration
import SmithSnmp.MibHeap
import SmithSnmp.SubtreeDelete
import SmithSnmp.Containment
import SmithSnmp.AuthError
import SmithSnmp.AuthEnforced
import SmithSnmp.MsgIn
import SmithSnmp.Authen
import SmithSnmp.Bounds
import SmithSnmp.MsgOut
import SmithSnmp.WellFormed
import SmithSnmp.BerCodec
import SmithSnmp.ByteOrder
import SmithSnmp.BerMeaning
import SmithSnmp.BerNumbers
import SmithSnmp.BerOids
import SmithSnmp.DecodeJournal
import SmithSnmp.VarBindTiling
import SmithSnmp.SignFill
import SmithSnmp.RoundTrip
import SmithSnmp.NonInterference
import SmithSnmp.FurtherViews
import SmithSnmp.LuaIndex
import SmithSnmp.LuaOrder
import SmithSnmp.LuaGroup
import SmithSnmp.LuaCanonical
import SmithSnmp.LuaNext
import SmithSnmp.LuaWalk
import SmithSnmp.AllOrNothing
import SmithSnmp.Agreement
import SmithSnmp.SearchResults
import SmithSnmp.ErrorFields
import SmithSnmp.BulkGet
import SmithSnmp.Trap
import SmithSnmp.TrapRegistry
import SmithSnmp.TrapProbe
import SmithSnmp.Snmpd
import SmithSnmp.Isolation
import SmithSnmp.Transport
import SmithSnmp.EventBackends
import SmithSnmp.AgentxIn
import SmithSnmp.AgentxOut
import SmithSnmp.AgentxRoundTrip
import SmithSnmp.AgentxFraming
import SmithSnmp.AgentxProc
import SmithSnmp.AgentxSet
import SmithSnmp.AgentxReg
import SmithSnmp.AgentxWire
import SmithSnmp.AgentxOrder
import SmithSnmp.AgentxObjid
import SmithSnmp.AgentxRange
import SmithSnmp.SetEcho
