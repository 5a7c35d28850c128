import Xv6.Lib.Bytes

/-!
# Fs — blocks and the disk
-/

namespace Xv6.Fs
open Lib

/-- `BSIZE`. -/
def bsize : Nat := 512

abbrev Block := Bytes bsize

/-- The disk, by block number. -/
abbrev Disk := Nat → Block

end Xv6.Fs
