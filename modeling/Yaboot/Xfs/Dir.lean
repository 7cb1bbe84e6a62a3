import Yaboot.Base.Buffer
import Yaboot.Base.Pathname

/-! `xfs_dir` of `second/fs_xfs.c`. Directories are given by the entries that
`first_dentry` and `next_dentry` return and links by the text that
`xfs_read_data` returns. The remaining pathname lies in the caller's buffer or,
once a link was met, in `linkbuf`. -/
namespace Yaboot.Xfs
open Buffer CString Pathname

def maxLinkCount : Nat := 8

def fileErrNotfound : Int := -2
def fileErrBadType : Int := -6
def fileErrNotdir : Int := -7
def fileErrSymlinkLoop : Int := -9
def fileErrLength : Int := -10

/-- An inode as `xfs_dir` sees it. An entry with inode number zero is the
directory itself. -/
structure Object where
  kind : Kind
  entries : List (CStr × Nat)
  text : CStr
  deriving DecidableEq, Repr

/-- A volume; the text of a link is neither empty nor does it hold a zero. -/
structure DirVolume where
  bsize : Nat
  rootino : Nat
  object : Nat → Object
  bsize_ge : 512 ≤ bsize
  root_dir : (object rootino).kind = .directory
  text_ne : ∀ i, (object i).kind = .link → (object i).text ≠ []
  text_nul : ∀ i, (object i).kind = .link → 0 ∉ (object i).text

/-- Where `dirname` points. -/
inductive Place where
  | caller (rest : CStr)
  | linkbuf (offset : Nat)
  deriving DecidableEq, Repr

def Place.char (mem : Bytes) : Place → UInt8
  | .caller rest => rest.headD 0
  | .linkbuf offset => mem offset

def Place.drop (n : Nat) : Place → Place
  | .caller rest => .caller (rest.drop n)
  | .linkbuf offset => .linkbuf (offset + n)

/-- The string at a place; `linkbuf` has `bsize` characters. -/
def Place.string (bsize : Nat) (mem : Bytes) : Place → CStr
  | .caller rest => rest
  | .linkbuf offset => ((List.range' offset (bsize - offset)).map mem).takeWhile (· != 0)

/-- `while (n < limit && (linkbuf[n++] = *dirname++));` -/
def copyRest (limit : Nat) (mem : Bytes) (src : Place) (n : Nat) : Nat × Bytes :=
  if n < limit then
    let ch := src.char mem
    let mem := Function.update mem n ch
    if ch = 0 then (n + 1, mem) else copyRest limit mem (src.drop 1) (n + 1)
  else (n, mem)
termination_by limit - n

structure DirState where
  ino : Nat
  parentIno : Nat
  linkCount : Nat
  linkbuf : Bytes
  dirname : Place

/-- Reading a link of the given text and putting the rest of the path behind it. -/
def spliceLink (v : DirVolume) (text : CStr) (s : DirState) : DirState :=
  let mem := blit s.linkbuf 0 text.length fun i => text.getD i 0
  let copied := copyRest (v.bsize - 1) mem s.dirname text.length
  { s with
    ino := if mem 0 = 47 then v.rootino else s.parentIno
    linkCount := s.linkCount + 1
    linkbuf := Function.update copied.2 copied.1 0
    dirname := .linkbuf 0 }

/-- The loop over the entries of a directory. -/
def findEntry (entries : List (CStr × Nat)) (name : CStr) : Option Nat :=
  if name = [] then none else (entries.find? fun entry => entry.1 == name).map fun entry => entry.2

/-- The first component as `xfs_dir` cuts it. -/
def cutName (path : CStr) : CStr :=
  (path.dropWhile (· == 47)).takeWhile fun ch => ch != 0 && !isspace ch && ch != 47

/-- The loop of `xfs_dir`, given up after `fuel` rounds: an inode or `errnum`. -/
def xfsDirLoop (v : DirVolume) : Nat → DirState → Option (Except Int Nat)
  | 0, _ => none
  | fuel + 1, s =>
    let object := v.object s.ino
    if object.kind = .link then
      if maxLinkCount < s.linkCount + 1 then some (.error fileErrSymlinkLoop)
      else if object.text.length < v.bsize - 1 then
        xfsDirLoop v fuel (spliceLink v object.text s)
      else some (.error fileErrLength)
    else
      let path := s.dirname.string v.bsize s.linkbuf
      if path = [] ∨ isspace (path.headD 0) = true then
        if object.kind = .regular then some (.ok s.ino) else some (.error fileErrBadType)
      else if object.kind ≠ .directory then some (.error fileErrNotdir)
      else
        match findEntry object.entries (cutName path) with
        | none => some (.error fileErrNotfound)
        | some newIno =>
          xfsDirLoop v fuel
            { s with
              parentIno := s.ino
              ino := if newIno ≠ 0 then newIno else s.ino
              dirname := s.dirname.drop
                ((path.takeWhile (· == 47)).length + (cutName path).length) }

/-- `xfs_dir`; `linkbuf` is not initialised. -/
def xfsDir (v : DirVolume) (fuel : Nat) (linkbuf : Bytes) (dirname : CStr) : Option (Except Int Nat) :=
  xfsDirLoop v fuel ⟨v.rootino, v.rootino, 0, linkbuf, .caller dirname⟩

end Yaboot.Xfs
