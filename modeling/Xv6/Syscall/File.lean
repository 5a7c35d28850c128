import Xv6.Fs.Files
import Xv6.Syscall.Args

/-!
# Syscall — open files

The file table and what the processes have open, over the file system of `Xv6.Fs`.  A program on the
file system is one on the whole state (`fs`).  The files of pipes are not in this table.
-/

namespace Xv6.Syscall
open Lib Lib.Prog Fs

/-- `NFILE`. -/
def nfile : Nat := 100

/-- `NOFILE`. -/
def nofile : Nat := 16

/-- `NPROC`. -/
def nproc : Nat := 64

theorem nfile_pos : 0 < nfile := by decide

theorem nproc_pos : 0 < nproc := by decide

inductive FileType where
  /-- `FD_NONE` -/
  | none
  /-- `FD_INODE` -/
  | inode
  deriving DecidableEq, Repr

structure File where
  type : FileType
  ref : Int
  readable : Bool
  writable : Bool
  ip : Slot
  off : UInt32

abbrev FileNo := Fin nfile

/-- What a process has open; a slot of the process table without a process has nothing. -/
structure Proc where
  ofile : Fin nofile → Option FileNo
  cwd : Option Slot

structure Sys where
  fs : State
  ftable : FileNo → File
  procs : Fin nproc → Proc

abbrev SysM := Prog Sys Stop

/-- A program on the file system. -/
def fs {α : Type} (m : FsM α) : SysM α := zoom Sys.fs (fun t s => { t with fs := s }) m

def setFile (f : FileNo) (g : File → File) : SysM Unit :=
  modify fun t => { t with ftable := Function.update t.ftable f (g (t.ftable f)) }

def setProc (p : Fin nproc) (g : Proc → Proc) : SysM Unit :=
  modify fun t => { t with procs := Function.update t.procs p (g (t.procs p)) }

/-- Allocate a file structure. -/
def filealloc : SysM (Option FileNo) := do
  let ftable ← gets Sys.ftable
  match (List.finRange nfile).find? fun f => decide ((ftable f).ref = 0) with
  | none => pure none
  | some f => do
      setFile f fun file => { file with ref := 1 }
      pure (some f)

/-- Allocate a file descriptor. -/
def fdalloc (p : Fin nproc) (f : FileNo) : SysM (Option (Fin nofile)) := do
  let proc ← gets fun t => t.procs p
  match (List.finRange nofile).find? fun fd => decide (proc.ofile fd = none) with
  | none => pure none
  | some fd => do
      setProc p fun proc => { proc with ofile := Function.update proc.ofile fd (some f) }
      pure (some fd)

def fileclose (f : FileNo) : SysM Unit := do
  let file ← gets fun t => t.ftable f
  if file.ref < 1 then stop .fileclose
  else if file.ref - 1 > 0 then setFile f fun file => { file with ref := file.ref - 1 }
  else do
    setFile f fun file => { file with ref := 0, type := .none }
    match file.type with
    | .none => pure ()
    | .inode => do
        fs beginOp
        fs (iput file.ip)
        fs endOp

/-- `fileread`: the bytes it stores, from its address on. -/
def fileread (f : FileNo) (n : UInt32) : SysM (Option (List UInt8)) := do
  let file ← gets fun t => t.ftable f
  if file.readable = false then pure none
  else
    match file.type with
    | .none => stop .fileread
    | .inode => do
        fs (ilock file.ip)
        let r ← fs (readi file.ip file.off.toNat n.toNat)
        setFile f fun file => { file with off := file.off + .ofNat (r.getD []).length }
        fs (iunlock file.ip)
        pure r

/-- The most bytes `filewrite` writes in one operation. -/
def maxWrite : Nat := (30 - 1 - 1 - 2) / 2 * 512

/-- `filewrite`'s loop over the bytes that are left; whether it wrote them all. -/
def writeChunks (f : FileNo) (src : List UInt8) : SysM Bool :=
  if _h : src.length = 0 then pure true
  else do
    fs beginOp
    let file ← gets fun t => t.ftable f
    fs (ilock file.ip)
    let r ← fs (writei file.ip file.off.toNat (src.take maxWrite))
    setFile f fun file => { file with off := file.off + .ofNat (r.getD 0) }
    fs (iunlock file.ip)
    fs endOp
    match r with
    | none => pure false
    | some k =>
        if k ≠ (src.take maxWrite).length then stop .shortFilewrite
        else writeChunks f (src.drop maxWrite)
  termination_by src.length
  decreasing_by
    rw [List.length_drop]
    have : 0 < maxWrite := by decide
    omega

/-- `filewrite` of these bytes; whether it wrote them. -/
def filewrite (f : FileNo) (src : List UInt8) : SysM Bool := do
  let file ← gets fun t => t.ftable f
  if file.writable = false then pure false
  else
    match file.type with
    | .none => stop .filewrite
    | .inode => writeChunks f src

end Xv6.Syscall
