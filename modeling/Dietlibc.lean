import Dietlibc.Base.CInt
import Dietlibc.Base.Calendar
import Dietlibc.Time.Gmtime
import Dietlibc.Time.Timegm
import Dietlibc.Time.Normalise
import Dietlibc.Time.Tzfile
import Dietlibc.Time.TzForward
import Dietlibc.Time.Mktime
import Dietlibc.Scanf.Vscanf
import Dietlibc.Scanf.Directives
import Dietlibc.Scanf.Stream
import Dietlibc.Rx.Parse
import Dietlibc.Rx.Grammar
import Dietlibc.Rx.Found
import Dietlibc.Rx.Whole
import Dietlibc.Rx.Recased
import Dietlibc.Rx.Icase
import Dietlibc.Rx.Match
import Dietlibc.Rx.CaseBlind
import Dietlibc.Base.Links
import Dietlibc.Search.Hsearch
import Dietlibc.Search.Refine
import Dietlibc.Base.Mem
import Dietlibc.Stdio.File
import Dietlibc.Stdio.Output
import Dietlibc.Stdio.Ledger
import Dietlibc.Stdio.Delivered
import Dietlibc.Stdio.Accepted
import Dietlibc.Stdio.Regular
import Dietlibc.Stdio.Reading
import Dietlibc.Stdio.Update
import Dietlibc.Stdio.Getdelim
import Dietlibc.Stdio.Rights
import Dietlibc.Stdio.Standing
import Dietlibc.Stdio.Tell
import Dietlibc.Alloc.Malloc
import Dietlibc.Alloc.Invariant
import Dietlibc.Alloc.Steps
import Dietlibc.Alloc.Calls
import Dietlibc.Lib.Strtol
import Dietlibc.Lib.Environ
import Dietlibc.Lib.EnvironMap
import Dietlibc.Lib.Getopt
import Dietlibc.Lib.GetoptArgv
import Dietlibc.Lib.GetoptProgress
import Dietlibc.Printf.Vprintf
import Dietlibc.Printf.Spec
import Dietlibc.Printf.Parse
import Dietlibc.Printf.Text
import Dietlibc.Printf.Layout
import Dietlibc.Printf.Conform
import Dietlibc.Wchar.Multibyte
import Dietlibc.Wchar.Restart
import Dietlibc.Dns.Name
import Dietlibc.Dns.Decode
import Dietlibc.Dns.Query
import Dietlibc.Dns.Labels
import Dietlibc.Dns.RoundTrip
import Dietlibc.Dns.Skip
import Dietlibc.Inet.Address
import Dietlibc.Inet.Numbers
import Dietlibc.Inet.Grammar
import Dietlibc.Inet.Parse
import Dietlibc.Inet.RoundTrip
import Dietlibc.Inet.Lax
import Dietlibc.Shell.Fnmatch
import Dietlibc.Shell.Pattern
import Dietlibc.Shell.Bracket
import Dietlibc.Shell.Conform
import Dietlibc.Base.Machine
import Dietlibc.Accounts.Reader
import Dietlibc.Accounts.Ends
import Dietlibc.Accounts.Lines
import Dietlibc.Accounts.Passwd
import Dietlibc.Accounts.Enumeration
import Dietlibc.Accounts.Group
import Dietlibc.Accounts.GroupCalls
import Dietlibc.Accounts.Retry
import Dietlibc.Accounts.Putpwent
import Dietlibc.Netdb.Services
import Dietlibc.Iconv.Convert
import Dietlibc.Iconv.Turn
import Dietlibc.Iconv.Bounds
import Dietlibc.Iconv.Bookkeeping
import Dietlibc.Iconv.Utf8
import Dietlibc.Iconv.RoundTrip
import Dietlibc.Dns.ResolvConf
import Dietlibc.Dns.ResolvTotal
import Dietlibc.Dns.ResQuery
import Dietlibc.Dns.GetHost
import Dietlibc.Dns.GetHostBuffer
import Dietlibc.Dns.GetHostReply
import Dietlibc.Glob.Failure
import Dietlibc.Sort.Sorted
import Dietlibc.Number.Ltostr
import Dietlibc.Printf.Vsnprintf
import Dietlibc.Scanf.Agreement
import Dietlibc.Scanf.Scansets
import Dietlibc.Rx.Brackets
import Dietlibc.Rx.Offsets
import Dietlibc.Rx.Language
import Dietlibc.Rx.Shown
import Dietlibc.Rx.Kept
import Dietlibc.Rx.Leftmost
import Dietlibc.Rx.Walks
import Dietlibc.Rx.Groups
import Dietlibc.Stdio.Fread
import Dietlibc.Time.Negative
import Dietlibc.Time.Derived
import Dietlibc.Time.Stays
import Dietlibc.Time.Expansion
import Dietlibc.Time.Restored
import Dietlibc.Shell.Reads
import Dietlibc.Netdb.HostsCalls
import Dietlibc.Words.StrlenBig
import Dietlibc.Words.Strcmp
import Dietlibc.Words.Copy
import Dietlibc.Base.Congruential
import Dietlibc.Base.Chunked
import Dietlibc.Random.Rand
import Dietlibc.Random.Rand48
import Dietlibc.Random.Arc4random
import Dietlibc.Lib.Atexit
import Dietlibc.Crypt.Md5
import Dietlibc.Crypt.Chunks
import Dietlibc.Wchar.Overlong
import Dietlibc.Wchar.Mbsrtowcs
import Dietlibc.Wchar.Wcsrtombs
import Dietlibc.Lib.GetoptClusters
import Dietlibc.Number.Chars
import Dietlibc.Inet.Aton
import Dietlibc.Base.Difference
import Dietlibc.Base.Occurrence
import Dietlibc.Base.Cells
import Dietlibc.Strings.Memcmp
import Dietlibc.Strings.ByteSearch
import Dietlibc.Strings.Strstr
import Dietlibc.Wchar.Wcsstr
import Dietlibc.Shell.Paths
import Dietlibc.Mount.Hasmntopt
import Dietlibc.Strings.Strtok
import Dietlibc.Strings.Strverscmp
import Dietlibc.Strings.VersionOrder
import Dietlibc.Dirs.Readdir
import Dietlibc.Dns.Searching
import Dietlibc.Stdio.Fgets
import Dietlibc.Number.Decimal
import Dietlibc.Mount.Mntent
import Dietlibc.Mount.RoundTrip
import Dietlibc.Base.Restoring
import Dietlibc.Base.TwoWay
import Dietlibc.Base.Feistel
import Dietlibc.Base.Assign
import Dietlibc.Base.Scan
import Dietlibc.Base.Circular
import Dietlibc.Loader.Division
import Dietlibc.Loader.Handles
import Dietlibc.Loader.Lookup
import Dietlibc.Loader.Dependencies
import Dietlibc.Strings.Memmem
import Dietlibc.Lib.Execvp
import Dietlibc.Crypt.Des
import Dietlibc.Sort.Pointers
import Dietlibc.Dirs.Scandir
import Dietlibc.Base.Interleaving
import Dietlibc.Threads.Rwlock
import Dietlibc.Threads.Mutex
import Dietlibc.Threads.PthreadMutex
import Dietlibc.Rpc.Xdr
import Dietlibc.Rpc.Ledger
import Dietlibc.Rpc.Record
