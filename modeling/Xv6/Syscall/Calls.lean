import Xv6.Fs.Dir
import Xv6.Syscall.File

/-!
# Syscall — the calls of `sysfile.c`

The system calls on files and directories, by a process `p` whose current directory is `cwd`, and
`exit` as far as it closes what the process has open.  A path is the C string the call gets.  The
value of a call is what it returns.
-/

namespace Xv6.Syscall
open Lib Lib.Prog Fs

/-- `nlink += n`, in memory and on the disk. -/
def addNlink (ip : Slot) (n : UInt16) : FsM Unit :=
  storeFields ip fun c => { c with nlink := c.nlink + n }

/-! ### `link` and `unlink` -/

/-- `sys_link`'s `bad`: the count goes back. -/
def linkBad (ip : Slot) : FsM Int := do
  ilock ip
  addNlink ip (-1)
  iunlockput ip
  pure (-1)

/-- `sys_link` from the new name on. -/
def linkNew (cwd ip : Slot) (new : List UInt8) : FsM Int := do
  let r ← nameiparent cwd new
  match r with
  | none => linkBad ip
  | some (dp, name) => do
      ilock dp
      let i ← inode ip
      let linked ← dirlink dp name i.inum
      if linked = false then do
        iunlockput dp
        linkBad ip
      else do
        iunlockput dp
        iput ip
        pure 0

/-- `sys_link` between `begin_op` and `end_op`. -/
def link (cwd : Slot) (old new : List UInt8) : FsM Int := do
  let r ← namei cwd old
  match r with
  | none => pure (-1)
  | some ip => do
      ilock ip
      let i ← inode ip
      if i.copy.type = tDir then do
        iunlockput ip
        pure (-1)
      else do
        addNlink ip 1
        iunlock ip
        linkNew cwd ip new

/-- `sys_unlink` for the directory of the entry: without a subdirectory it has a link less. -/
def unlinkParent (dp : Slot) (type : UInt16) : FsM Unit :=
  if type = tDir then addNlink dp (-1) else pure ()

/-- `sys_unlink` from the removal of the entry on. -/
def unlinkEntry (dp ip : Slot) (off : Nat) : FsM Int := do
  let r ← writei dp off (List.replicate direntSize 0)
  if r ≠ some direntSize then stop .unlinkWritei
  else do
    let i ← inode ip
    unlinkParent dp i.copy.type
    iunlockput dp
    addNlink ip (-1)
    iunlockput ip
    pure 0

/-- Only an empty directory may be removed. -/
def unlinkEmpty (ip : Slot) (type : UInt16) : FsM Bool :=
  if type = tDir then isdirempty ip else pure true

/-- `sys_unlink` between `begin_op` and `end_op`. -/
def unlink (cwd : Slot) (path : List UInt8) : FsM Int := do
  let r ← nameiparent cwd path
  match r with
  | none => pure (-1)
  | some (dp, name) => do
      ilock dp
      if name = dot ∨ name = dotdot then do
        iunlockput dp
        pure (-1)
      else do
        let r ← dirlookup dp name
        match r with
        | none => do
            iunlockput dp
            pure (-1)
        | some (ip, off) => do
            ilock ip
            let i ← inode ip
            if i.copy.nlink.toBitVec.toInt < 1 then stop .unlinkNlink
            else do
              let empty ← unlinkEmpty ip i.copy.type
              if empty = false then do
                iunlockput ip
                iunlockput dp
                pure (-1)
              else unlinkEntry dp ip off

/-! ### `create` -/

/-- `create` for a directory: the entries `.` and `..`. -/
def createDots (dp ip : Slot) (type : UInt16) : FsM Unit :=
  if type = tDir then do
    addNlink dp 1
    let i ← inode ip
    let ok ← dirlink ip dot i.inum
    if ok = false then stop .createDots
    else do
      let d ← inode dp
      let ok ← dirlink ip dotdot d.inum
      if ok = false then stop .createDots else pure ()
  else pure ()

/-- `create` from `ialloc` on: a new inode, linked into `dp`. -/
def createNew (dp : Slot) (name : List UInt8) (type major minor : UInt16) : FsM Slot := do
  let ip ← ialloc type
  ilock ip
  storeFields ip fun c => { c with major := major, minor := minor, nlink := 1 }
  createDots dp ip type
  let i ← inode ip
  let ok ← dirlink dp name i.inum
  if ok = false then stop .createDirlink
  else do
    iunlockput dp
    pure ip

/-- `create`: the inode, locked. -/
def create (cwd : Slot) (path : List UInt8) (type major minor : UInt16) : FsM (Option Slot) := do
  let r ← nameiparent cwd path
  match r with
  | none => pure none
  | some (dp, name) => do
      ilock dp
      let r ← dirlookup dp name
      match r with
      | some (ip, _) => do
          iunlockput dp
          ilock ip
          let i ← inode ip
          if type = tFile ∧ i.copy.type = tFile then pure (some ip)
          else do
            iunlockput ip
            pure none
      | none => do
          let ip ← createNew dp name type major minor
          pure (some ip)

/-! ### The calls -/

/-- `O_WRONLY`. -/
def oWronly : UInt32 := 0x001

/-- `O_RDWR`. -/
def oRdwr : UInt32 := 0x002

/-- `O_CREATE`. -/
def oCreate : UInt32 := 0x200

/-- `sys_open`'s inode, locked. -/
def openInode (cwd : Slot) (path : List UInt8) (omode : UInt32) : FsM (Option Slot) :=
  if omode &&& oCreate ≠ 0 then create cwd path tFile 0 0
  else do
    let r ← namei cwd path
    match r with
    | none => pure none
    | some ip => do
        ilock ip
        let i ← inode ip
        if i.copy.type = tDir ∧ omode ≠ 0 then do
          iunlockput ip
          pure none
        else pure (some ip)

def sys_open (p : Fin nproc) (cwd : Slot) (path : List UInt8) (omode : UInt32) : SysM Int := do
  fs beginOp
  let r ← fs (openInode cwd path omode)
  match r with
  | none => do
      fs endOp
      pure (-1)
  | some ip => do
      let r ← filealloc
      match r with
      | none => do
          fs (iunlockput ip)
          fs endOp
          pure (-1)
      | some f => do
          let r ← fdalloc p f
          match r with
          | none => do
              fileclose f
              fs (iunlockput ip)
              fs endOp
              pure (-1)
          | some fd => do
              fs (iunlock ip)
              fs endOp
              setFile f fun file => { file with
                type := .inode, ip := ip, off := 0
                readable := decide (omode &&& oWronly = 0)
                writable := decide (omode &&& oWronly ≠ 0) || decide (omode &&& oRdwr ≠ 0) }
              pure fd.val

def sys_mkdir (cwd : Slot) (path : List UInt8) : SysM Int := do
  fs beginOp
  let r ← fs (create cwd path tDir 0 0)
  match r with
  | none => do
      fs endOp
      pure (-1)
  | some ip => do
      fs (iunlockput ip)
      fs endOp
      pure 0

def sys_mknod (cwd : Slot) (path : List UInt8) (major minor : UInt16) : SysM Int := do
  fs beginOp
  let r ← fs (create cwd path tDev major minor)
  match r with
  | none => do
      fs endOp
      pure (-1)
  | some ip => do
      fs (iunlockput ip)
      fs endOp
      pure 0

def sys_link (cwd : Slot) (old new : List UInt8) : SysM Int := do
  fs beginOp
  let r ← fs (link cwd old new)
  fs endOp
  pure r

def sys_unlink (cwd : Slot) (path : List UInt8) : SysM Int := do
  fs beginOp
  let r ← fs (unlink cwd path)
  fs endOp
  pure r

def sys_chdir (p : Fin nproc) (cwd : Slot) (path : List UInt8) : SysM Int := do
  fs beginOp
  let r ← fs (namei cwd path)
  match r with
  | none => do
      fs endOp
      pure (-1)
  | some ip => do
      fs (ilock ip)
      let i ← fs (inode ip)
      if i.copy.type ≠ tDir then do
        fs (iunlockput ip)
        fs endOp
        pure (-1)
      else do
        fs (iunlock ip)
        fs (iput cwd)
        fs endOp
        setProc p fun proc => { proc with cwd := some ip }
        pure 0

def sys_write (p : Fin nproc) (fd : Fin nofile) (src : List UInt8) : SysM Int := do
  let proc ← gets fun t => t.procs p
  match proc.ofile fd with
  | none => pure (-1)
  | some f => do
      let ok ← filewrite f src
      pure (if ok then src.length else -1)

def sys_close (p : Fin nproc) (fd : Fin nofile) : SysM Int := do
  let proc ← gets fun t => t.procs p
  match proc.ofile fd with
  | none => pure (-1)
  | some f => do
      setProc p fun proc => { proc with ofile := Function.update proc.ofile fd none }
      fileclose f
      pure 0

/-- One round of `exit`'s loop over the open files. -/
def exitClose (p : Fin nproc) (fd : Fin nofile) : SysM Unit := do
  let proc ← gets fun t => t.procs p
  match proc.ofile fd with
  | none => pure ()
  | some f => do
      fileclose f
      setProc p fun proc => { proc with ofile := Function.update proc.ofile fd none }

/-- `exit`, until the process has nothing open. -/
def exit (p : Fin nproc) (cwd : Slot) : SysM Int := do
  forEach (List.finRange nofile) (exitClose p)
  fs beginOp
  fs (iput cwd)
  fs endOp
  setProc p fun proc => { proc with cwd := none }
  pure 0

/-- A call. -/
inductive Call where
  | open (path : List UInt8) (omode : UInt32)
  | mkdir (path : List UInt8)
  | mknod (path : List UInt8) (major minor : UInt16)
  | link (old new : List UInt8)
  | unlink (path : List UInt8)
  | chdir (path : List UInt8)
  | write (fd : Fin nofile) (src : List UInt8)
  | close (fd : Fin nofile)
  | exit

/-- The call, by a process whose current directory is `cwd`. -/
def Call.run (p : Fin nproc) (cwd : Slot) : Call → SysM Int
  | .open path omode => sys_open p cwd (cstr path) omode
  | .mkdir path => sys_mkdir cwd (cstr path)
  | .mknod path major minor => sys_mknod cwd (cstr path) major minor
  | .link old new => sys_link cwd (cstr old) (cstr new)
  | .unlink path => sys_unlink cwd (cstr path)
  | .chdir path => sys_chdir p cwd (cstr path)
  | .write fd src => sys_write p fd src
  | .close fd => sys_close p fd
  | .exit => Syscall.exit p cwd

/-- A process makes a call that returns; a process that has exited makes none. -/
def step (t : Sys) (e : Fin nproc × Call) : Option Sys :=
  match (t.procs e.1).cwd with
  | none => none
  | some cwd =>
      match e.2.run e.1 cwd t with
      | .ok (_, t) => some t
      | .error _ => none

end Xv6.Syscall
