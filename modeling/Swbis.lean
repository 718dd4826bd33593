import Swbis.Lib.CString
import Swbis.Lib.Numeral
import Swbis.Lib.SelfSized
import Swbis.Lib.Strtol
import Swbis.Lib.Scanf
import Swbis.Lib.Outcome
import Swbis.Lib.Memory
import Swbis.Lib.Search
import Swbis.Lib.Strtok
import Swbis.Lib.Shell
import Swbis.Lib.Linked
import Swbis.Lib.Numbering
import Swbis.Lib.Descriptor
import Swbis.Lib.Memo
import Swbis.Lib.ObjList
import Swbis.Lib.Qsort
import Swbis.Lib.BlockHash
import Swbis.Lib.ByteOrder
import Swbis.Lib.Recurrence
import Swbis.Lib.FullRead
import Swbis.Lib.Crc
import Swbis.Taru.Header
import Swbis.Taru.ToOct
import Swbis.Taru.Name
import Swbis.Taru.WriteTar
import Swbis.Taru.HeaderNumbers
import Swbis.Taru.Exatt
import Swbis.Taru.ExtHeader
import Swbis.Taru.ExtHdrWrite
import Swbis.Taru.ExtHdrBuffer
import Swbis.Taru.Xattr
import Swbis.Taru.ReadTar
import Swbis.Taru.Resync
import Swbis.Taru.BufferSource
import Swbis.Taru.SlotReuse
import Swbis.Taru.Member
import Swbis.Taru.HeaderStream
import Swbis.Taru.MemberRead
import Swbis.Taru.LongName
import Swbis.Taru.RecordName
import Swbis.Taru.LongNameWrite
import Swbis.Taru.LongNameRead
import Swbis.Taru.Cpio
import Swbis.Taru.SigBlock
import Swbis.Taru.Verify
import Swbis.Uxfio.DynamicMem
import Swbis.Uxfio.BlockOutput
import Swbis.Taru.Safewrite
import Swbis.Taru.Taruib
import Swbis.Taru.Defer
import Swbis.Misc.Cplob
import Swbis.Misc.Strob
import Swbis.Misc.StrobStrtok
import Swbis.Misc.StrobSprintf
import Swbis.Misc.PipePump
import Swbis.Taru.Porinode
import Swbis.Taru.Pwent
import Swbis.Misc.Swgpg
import Swbis.Misc.Synct
import Swbis.Misc.Slash
import Swbis.Misc.Swpath
import Swbis.Misc.Vrealpath
import Swbis.Misc.Swverid
import Swbis.Misc.VeridList
import Swbis.Misc.Swicol
import Swbis.Misc.SwdefRoundTrip
import Swbis.Misc.Swssh
import Swbis.Misc.Swextopt
import Swbis.Taru.Arfcopy
import Swbis.Taru.NameTooLong
import Swbis.Taru.NameRoundTrip
import Swbis.Misc.Swheader
import Swbis.Misc.SwheaderAttributes
import Swbis.Swi.Swsel
import Swbis.Misc.Swicat
import Swbis.Misc.SwicatText
import Swbis.Misc.SwicatE
import Swbis.Misc.SwvarfsAccess
import Swbis.Uxfio.Insert
import Swbis.Uxfio.Buffered
import Swbis.Uxfio.BufferedRead
import Swbis.Uxfio.ForwardSeek
import Swbis.Uxfio.Ftruncate
import Swbis.Taru.SelectedSig
import Swbis.Misc.ApplyLocation
import Swbis.Misc.HexEscapes
import Swbis.Misc.Resolve
import Swbis.Misc.DirCompare
import Swbis.Misc.FormPath
import Swbis.Taru.Datoul
import Swbis.SwParse.SwlexInput
import Swbis.Misc.Swevents
import Swbis.Misc.SwicolEvents
import Swbis.SwStruct.SwPtrList
import Swbis.Misc.Strar
import Swbis.Misc.Fnmatch
import Swbis.Misc.DirScope
import Swbis.Misc.Vchdir
import Swbis.SwStruct.SwMetaData
import Swbis.Misc.ShpatRegex
import Swbis.Taru.PaxRoundTrip
import Swbis.Misc.Md5
import Swbis.Misc.Sha
import Swbis.Misc.Sha512
import Swbis.Misc.DigsCopy
import Swbis.Taru.RecordAgain
import Swbis.Taru.CopyOut
import Swbis.Misc.Cksum
import Swbis.Taru.CatalogStream
import Swbis.Taru.StorageStream
