import WamrMigrate.Ems.Realloc
import WamrMigrate.Image.InterpImage
import WamrMigrate.Interp.Containment
import WamrMigrate.Interp.Lineage
import WamrMigrate.Interp.CacheRun
import WamrMigrate.Image.RegistryMap
import WamrMigrate.Threads.AuxStack
import WamrMigrate.Restful.Transactions
import WamrMigrate.Interp.MemAccess
import WamrMigrate.Interp.Locals
import WamrMigrate.Ems.AllocComplete
import WamrMigrate.Ems.DoubleFree
import WamrMigrate.Image.LiveRuns
import WamrMigrate.Restful.Validation
import WamrMigrate.Restful.KeyValue
import WamrMigrate.Interp.MemoryInstantiate
import WamrMigrate.Threads.WaitLifetime
import WamrMigrate.Loader.Utf8
import WamrMigrate.Loader.ImportPartition
import WamrMigrate.Loader.IndexSpaces
import WamrMigrate.Wasi.Sandbox
import WamrMigrate.Utils.Vector
import WamrMigrate.Utils.HashMap
import WamrMigrate.Sensor.Polling
