import ZfsOsx.Lib.Tree
import ZfsOsx.Lib.Ordered
import ZfsOsx.Lib.Buffer
import ZfsOsx.Lib.Endian
import ZfsOsx.Lib.Forest
import ZfsOsx.Lib.Sweep
import ZfsOsx.Avl.Shape
import ZfsOsx.Avl.Heap
import ZfsOsx.Avl.Rotation
import ZfsOsx.Avl.Search
import ZfsOsx.Avl.Insert
import ZfsOsx.Avl.Remove
import ZfsOsx.Avl.Update
import ZfsOsx.Avl.Valid
import ZfsOsx.Avl.Neighbours
import ZfsOsx.Avl.Destroy
import ZfsOsx.Compress.Zle
import ZfsOsx.Compress.Lzjb
import ZfsOsx.Compress.Zio
import ZfsOsx.Checksum.Word
import ZfsOsx.Checksum.Fletcher
import ZfsOsx.Checksum.Sha256
import ZfsOsx.Checksum.Zio
import ZfsOsx.Checksum.RoundTrip
import ZfsOsx.Sa.Layout
import ZfsOsx.Dsl.Dir
import ZfsOsx.Dsl.Bpobj
import ZfsOsx.Dsl.Deadlist
import ZfsOsx.Arc.Accounting
import ZfsOsx.Arc.Run
import ZfsOsx.Txg.Pipeline
import ZfsOsx.SpaceMap.Map
import ZfsOsx.SpaceMap.Ref
import ZfsOsx.Ioctl.Namecheck
import ZfsOsx.Ioctl.Dispatch
import ZfsOsx.Lib.Bits
import ZfsOsx.Acl.Execute
import ZfsOsx.Lib.Ring
import ZfsOsx.Spa.History
import ZfsOsx.Spa.HistoryGet
import ZfsOsx.Lib.Sha2
import ZfsOsx.Checksum.Sha256Fips
import ZfsOsx.Metaslab.DfAlloc
import ZfsOsx.Lib.CString
import ZfsOsx.Nvpair.Lookup
import ZfsOsx.Lib.Combination
import ZfsOsx.Raidz.Combrec
import ZfsOsx.Nvpair.Native
import ZfsOsx.Lib.Cursor
import ZfsOsx.Nvpair.Pack
import ZfsOsx.Lib.Intrusive
import ZfsOsx.Txg.List
import ZfsOsx.Zap.Leaf
import ZfsOsx.Zap.Micro
import ZfsOsx.Zpl.RangeLock
import ZfsOsx.Arc.Target
import ZfsOsx.Arc.L2arc
import ZfsOsx.Zil.Parse
import ZfsOsx.Zil.Claim
import ZfsOsx.Acl.Chmod
import ZfsOsx.Acl.Inherit
import ZfsOsx.Dnode.NextOffset
import ZfsOsx.Dnode.FreeRange
import ZfsOsx.Recv.Stream
import ZfsOsx.Sync.Rrwlock
import ZfsOsx.Recv.Skip
import ZfsOsx.Zio.Gang
import ZfsOsx.Zio.Depend
import ZfsOsx.Import.Configs
import ZfsOsx.Vdev.Mirror
import ZfsOsx.Vdev.Dtl
import ZfsOsx.Spa.ConfigLock
import ZfsOsx.Dsl.Prop
import ZfsOsx.Efi.Read
import ZfsOsx.Vdev.Queue
import ZfsOsx.Lib.Kmem
import ZfsOsx.Zpl.DirentLock
import ZfsOsx.Libzfs.Nicenum
import ZfsOsx.Libuutil.Strtoint
import ZfsOsx.Zap.Array
