import Yaboot.Base.Buffer
import Yaboot.Base.Word

/-! The network driver of `second/fs_of.c`. `of_net_open` loads the whole file
into a buffer; reading is copying from it. -/
namespace Yaboot.Fs
open Buffer Word

/-- The fields of an open file the driver uses. -/
structure NetFile where
  pos : Nat
  len : Nat
  buffer : Bytes

/-- `of_net_seek`. -/
def ofNetSeek (file : NetFile) (newpos : Nat) : NetFile :=
  { file with pos := if file.len < newpos then file.len else newpos }

/-- `of_net_read`, into the start of `mem`. -/
def ofNetRead (file : NetFile) (size : Nat) (mem : Bytes) : Outcome :=
  let av := u32 (sub64 file.len file.pos)
  let count := if av < size then av else size
  ⟨s32 count, u64 (file.pos + count), blit mem 0 count fun i => file.buffer (file.pos + i)⟩

end Yaboot.Fs
