import SgxOram.Lib.Bag
import SgxOram.Lib.Loop
import SgxOram.Lib.Runs
import SgxOram.Lib.HeapPath
import SgxOram.Lib.Mask
import SgxOram.Lib.Aead
import SgxOram.Lib.Bytes
import SgxOram.Lib.Placement
import SgxOram.Lib.Packing
import SgxOram.Lib.Digits
import SgxOram.Lib.Reveal
import SgxOram.Lib.Machine
import SgxOram.Lib.ConstantTime
import SgxOram.Lib.Ledger
import SgxOram.Conf
import SgxOram.Util.VByte
import SgxOram.Util.Simple9
import SgxOram.Util.Simple9Spec
import SgxOram.Enclave.Oblivious
import SgxOram.Enclave.NodeSpec
import SgxOram.Enclave.Client
import SgxOram.Enclave.StashSpec
import SgxOram.Enclave.EvictSpec
import SgxOram.Enclave.EvictOptimal
import SgxOram.Enclave.FetchTrace
import SgxOram.Enclave.PositionMap
import SgxOram.Enclave.ObliviousAsm
import SgxOram.Enclave.DataCrypto
import SgxOram.Enclave.SimpleClient
import SgxOram.Enclave.FlushSpec
import SgxOram.App.MemTree
import SgxOram.App.TreeInv
import SgxOram.App.TreeRun
import SgxOram.App.Oram
import SgxOram.App.PathAddr
import SgxOram.App.PathOram
import SgxOram.App.PathOramArray
import SgxOram.App.Buffers
import SgxOram.App.PathDraws
import SgxOram.App.DrawCoupling
import SgxOram.App.MachineMap
import SgxOram.App.SharedClient
import SgxOram.App.Levels
import SgxOram.App.Tampering
import SgxOram.App.Rollback
import SgxOram.App.SimpleOram
import SgxOram.App.PosMapChain
import SgxOram.App.SimpleTree
import SgxOram.App.SimpleStore
import SgxOram.App.SharedPath
import SgxOram.App.SimpleBuilds
import SgxOram.App.SimpleOramArray
import SgxOram.App.SimplePaths
import SgxOram.App.SimpleRoom
import SgxOram.App.SimpleBlockSize
import SgxOram.App.SimpleLeak
import SgxOram.App.Lifetime
import SgxOram.App.Accounts
import SgxOram.App.Caller
