import StupidKv.AolModes
import StupidKv.Compression
import StupidKv.PendingSyncs

namespace StupidKv
set_option autoImplicit true

/-- In nanoseconds. -/
abbrev Duration := Nat

def Duration.fromMillis (ms : Nat) : Duration := ms * 1000000

def defaultPoolSize : Nat := 512
def defaultResyncInterval : Duration := .fromMillis 5000
def defaultCleanupInterval : Duration := .fromMillis 1000
def defaultGcInterval : Duration := .fromMillis 500
def defaultGcFullScanFrequency : Nat := 20
def defaultResetThreshold : Nat := 100

structure DatabaseOptions where
  poolSize : Nat
  resyncInterval : Duration
  enableCleanup : Bool
  cleanupInterval : Duration
  enableGc : Bool
  gcInterval : Duration
  gcFullScanFrequency : Nat
  resetThreshold : Nat
deriving DecidableEq, Repr

def DatabaseOptions.new : DatabaseOptions where
  poolSize := defaultPoolSize
  resyncInterval := defaultResyncInterval
  enableCleanup := true
  cleanupInterval := defaultCleanupInterval
  enableGc := true
  gcInterval := defaultGcInterval
  gcFullScanFrequency := defaultGcFullScanFrequency
  resetThreshold := defaultResetThreshold

inductive SnapshotMode where
  | never
  | interval (interval : Duration)
deriving DecidableEq, Repr

structure PersistenceOptions where
  basePath : String
  snapshotMode : SnapshotMode
  snapshotPath : Option String
  aolMode : AolMode
  aolPath : Option String
  fsyncMode : FsyncMode
  compressionMode : CompressionMode
deriving DecidableEq, Repr

namespace PersistenceOptions

def new (basePath : String) : PersistenceOptions where
  basePath := basePath
  snapshotMode := .never
  snapshotPath := none
  aolMode := .never
  aolPath := none
  fsyncMode := .never
  compressionMode := .none

end PersistenceOptions

end StupidKv
