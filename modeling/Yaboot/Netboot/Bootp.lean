import Mathlib.Algebra.BigOperators.Group.List.Basic
import Yaboot.Base.Buffer
import Yaboot.Netboot.ConfigProofs

/-! The boot packet as it lies in a property of `/chosen`: where `prom_get_netinfo`
finds it, what is read of it, and the buffers its bytes give the size of. -/
namespace Yaboot.Netboot
open CString Cfg Buffer

/-! ### The packet -/

/-- `bootp_response_properties`: names, and where the packet is in the property. -/
def bootpResponseProperties : List (String × Nat) :=
  [("bootp-response", 0), ("dhcp-response", 0), ("bootpreply-packet", 0x2a)]

/-- `offsetof(struct bootp_packet, options)`. -/
def packetSize : Nat := 236

/-- `/chosen`: the lengths of its properties, and their bytes with what is behind the
memory they are copied to, unless that fails. -/
structure Chosen where
  proplen : String → Int
  int : ∀ name, -2 ^ 31 ≤ proplen name ∧ proplen name < 2 ^ 31
  getprop : String → Option Bytes

/-- A packet: the size of its property, where it is in it, and the property. -/
structure Response where
  size : Nat
  offset : Nat
  bytes : Bytes

/-- The first property that is not empty. -/
def Chosen.response (c : Chosen) : Option (String × Nat) :=
  bootpResponseProperties.find? fun p => 0 < c.proplen p.1

/-- `prom_get_netinfo`. The size of the packet is unsigned, and so is what it is
compared with. -/
def promGetNetinfo (c : Chosen) : Option Response :=
  match c.response with
  | none => none
  | some (propname, offset) =>
    let size := c.proplen propname
    if ((size - offset) % 2 ^ 32).toNat < packetSize then none
    else (c.getprop propname).map fun bytes => ⟨size.toNat, offset, bytes⟩

/-- The fields of the packet. -/
def Response.packet (r : Response) : Packet where
  htype := r.bytes (r.offset + 1)
  hlen := r.bytes (r.offset + 2)
  yiaddr := UInt32.ofNat (word32 r.bytes (r.offset + 16))
  chaddr i := r.bytes (r.offset + 28 + i)

/-- The bytes `prom_get_mac` reads. -/
def Response.macReads (r : Response) : List Nat :=
  (r.offset + 2) :: (r.offset + 28) ::
    (List.range' 1 (r.packet.hlen.toNat - 1)).map fun i => r.offset + 28 + i

/-- The bytes `prom_get_ip` reads. -/
def Response.ipReads (r : Response) : List Nat := (List.range 4).map fun i => r.offset + 16 + i

/-! ### The buffers -/

/-- A string in allocated memory: how much was allocated, and how much is written. -/
structure Written where
  allocated : Nat
  end_ : Nat

def macBuffer (p : Packet) : Written := ⟨p.hlen.toNat * 3 + 1, (promGetMac p).length + 1⟩

def ipBuffer (p : Packet) : Written := ⟨9, (promGetIp p).length + 1⟩

/-- The name that is tried first. -/
def macFile (w : World) (p : Packet) : CStr :=
  w.cfgpath ++ hex 2 p.htype.toNat ++ cstr "-" ++ promGetMac p

/-- What `load_my_config_file` writes to `fspec.file`: the name with the address of
the card, and the one with the IP address if that did not settle it. -/
def fileBuffers (w : World) (p : Packet) (st : CfgState) : List Written :=
  let allocated := p.hlen.toNat * 3 + 2 + 6
  let (stage, _) := loadConfigFile w (macFile w p) st
  ⟨allocated, (macFile w p).length + 1⟩ ::
    if stage.result ≠ 0 then [] else [⟨allocated, (w.cfgpath ++ promGetIp p).length + 1⟩]

/-- All strings that are written for a packet. -/
def buffers (w : World) (p : Packet) (st : CfgState) : List Written :=
  macBuffer p :: ipBuffer p :: fileBuffers w p st

/-- The machine with the packet of `/chosen`. -/
def World.on (w : World) (c : Chosen) : World :=
  { w with netinfo := (promGetNetinfo c).map Response.packet }

/-- What is asked of the packet: it is in the property, and so is all that is read,
and the strings fit. -/
structure InBounds (w : World) (c : Chosen) (st : CfgState) : Prop where
  packet : ∀ r, promGetNetinfo c = some r → r.offset + packetSize ≤ r.size
  reads : ∀ r, promGetNetinfo c = some r → ∀ i ∈ r.macReads ++ r.ipReads, i < r.size
  room : ∀ r, promGetNetinfo c = some r →
    ∀ b ∈ buffers (w.on c) r.packet st, b.end_ ≤ b.allocated

/-- A packet of the property, whose hardware address has a length the code is made
for. -/
structure Sound (w : World) (st : CfgState) (size offset : Nat) (p : Packet) : Prop where
  whole : offset + packetSize ≤ size
  address : offset + 28 + p.hlen.toNat ≤ size
  some_ : 1 ≤ p.hlen.toNat
  name : w.etc → 2 ≤ p.hlen.toNat ∨ (loadConfigFile w (macFile w p) st).1.result ≠ 0

/-! ### Lengths -/

variable {w : World} {c : Chosen} {st : CfgState}

theorem promGetMac_length (p : Packet) :
    (promGetMac p).length = 2 + 3 * (p.hlen.toNat - 1) := by
  have digits : ∀ n, (cstr "-" ++ hex 2 n).length = 3 := by
    intro n
    rw [List.length_append, hex_length]
    rfl
  unfold promGetMac
  rw [List.length_append, hex_length, List.length_flatMap]
  simp only [digits, List.map_const', List.sum_replicate, List.length_range']
  rw [Nat.mul_comm]
  rfl

theorem promGetIp_length (p : Packet) : (promGetIp p).length = 8 := hex_length _ _

theorem cfgpath_length (w : World) : w.cfgpath.length = if w.etc then 5 else 0 := by
  unfold World.cfgpath
  split <;> rfl

theorem macFile_length (w : World) (p : Packet) :
    (macFile w p).length = w.cfgpath.length + 3 + (promGetMac p).length := by
  unfold macFile
  rw [List.length_append, List.length_append, List.length_append, hex_length]
  rfl

theorem on_netinfo (found : promGetNetinfo c = some r) : (w.on c).netinfo = some r.packet := by
  unfold World.on
  rw [found]
  rfl

theorem chopLoop_first (w : World) (left : Nat) (file : CStr) (st : CfgState) :
    ((chopLoop w (left + 1) file st).tried.head?).map Prod.fst = some file := by
  rw [chopLoop]
  dsimp only
  split <;> rfl

/-- The search tries the names as they are written: the address of the card first,
and the IP address behind it if that settled nothing. -/
theorem loadMyConfigFile_names (orig : CStr) (st : CfgState)
    (found : promGetNetinfo c = some r) :
    ((loadMyConfigFile (w.on c) orig st).tried.map Prod.fst).take 2 =
      if (loadConfigFile (w.on c) (macFile (w.on c) r.packet) st).1.result ≠ 0
      then [macFile (w.on c) r.packet]
      else [macFile (w.on c) r.packet, (w.on c).cfgpath ++ promGetIp r.packet] := by
  have left : ((w.on c).cfgpath ++ promGetIp r.packet).length - (w.on c).cfgpath.length =
      7 + 1 := by
    rw [List.length_append, promGetIp_length, Nat.add_sub_cancel_left]
  have second := chopLoop_first (w.on c) 7 ((w.on c).cfgpath ++ promGetIp r.packet)
    (loadConfigFile (w.on c) (macFile (w.on c) r.packet) st).2
  unfold loadMyConfigFile
  rw [on_netinfo found]
  dsimp only
  rw [left]
  change (List.map Prod.fst (Searched.tried (if
    (loadConfigFile (w.on c) (macFile (w.on c) r.packet) st).1.result ≠ 0 then _ else _))).take 2 = _
  split
  · rfl
  · rw [List.map_cons, List.take_succ_cons]
    congr 1
    rw [List.take_one, List.head?_map]
    exact congrArg Option.toList second

/-! ### The bounds -/

/-- The strings fit exactly for hardware addresses that are long enough. -/
theorem buffers_fit_iff (w : World) (p : Packet) (st : CfgState) :
    (∀ b ∈ buffers w p st, b.end_ ≤ b.allocated) ↔
      1 ≤ p.hlen.toNat ∧
        (w.etc → 2 ≤ p.hlen.toNat ∨ (loadConfigFile w (macFile w p) st).1.result ≠ 0) := by
  have mac := promGetMac_length p
  have ip := promGetIp_length p
  have path := cfgpath_length w
  have name := macFile_length w p
  unfold buffers fileBuffers macBuffer ipBuffer
  dsimp only
  simp only [List.forall_mem_cons, name, mac, ip, path]
  by_cases settled : (loadConfigFile w (macFile w p) st).1.result ≠ 0
  · rw [if_pos settled]
    constructor
    · rintro ⟨first, -, -⟩
      exact ⟨by omega, fun _ => .inr settled⟩
    · rintro ⟨some_, -⟩
      refine ⟨by omega, by decide, ?_, fun _ member => absurd member List.not_mem_nil⟩
      split <;> omega
  · rw [if_neg settled]
    simp only [List.forall_mem_singleton, List.length_append, ip, path]
    by_cases etc : w.etc = true
    · rw [if_pos etc]
      constructor
      · rintro ⟨first, -, -, second⟩
        exact ⟨by omega, fun _ => .inl (by omega)⟩
      · rintro ⟨some_, long⟩
        have two := (long etc).resolve_right settled
        exact ⟨by omega, by decide, by omega, by omega⟩
    · rw [if_neg etc]
      constructor
      · rintro ⟨first, -, -, -⟩
        exact ⟨by omega, fun yes => absurd yes etc⟩
      · rintro ⟨some_, -⟩
        exact ⟨by omega, by decide, by omega, by omega⟩

/-- What is read lies in the property exactly when the addresses do. -/
theorem reads_inside_iff (r : Response) (whole : r.offset + packetSize ≤ r.size)
    (some_ : 1 ≤ r.packet.hlen.toNat) :
    (∀ i ∈ r.macReads ++ r.ipReads, i < r.size) ↔
      r.offset + 28 + r.packet.hlen.toNat ≤ r.size := by
  have size : packetSize = 236 := rfl
  unfold Response.macReads Response.ipReads
  constructor
  · intro inside
    by_cases one : r.packet.hlen.toNat = 1
    · omega
    · have last := inside (r.offset + 28 + (r.packet.hlen.toNat - 1)) (List.mem_append_left _
        (List.mem_cons_of_mem _ (List.mem_cons_of_mem _ (List.mem_map.mpr
          ⟨r.packet.hlen.toNat - 1, List.mem_range'_1.mpr (by omega), rfl⟩))))
      omega
  · intro long i member
    rcases List.mem_append.mp member with mac | ip
    · rcases List.mem_cons.mp mac with rfl | mac
      · omega
      · rcases List.mem_cons.mp mac with rfl | mac
        · omega
        · obtain ⟨k, below, rfl⟩ := List.mem_map.mp mac
          rw [List.mem_range'_1] at below
          omega
    · obtain ⟨k, below, rfl⟩ := List.mem_map.mp ip
      rw [List.mem_range] at below
      omega

/-- A property that is found is not empty, and its packet is not far in it. -/
theorem response_bounds (given : c.response = some (propname, offset)) :
    0 < c.proplen propname ∧ offset ≤ 0x2a := by
  unfold Chosen.response at given
  have positive : 0 < c.proplen propname := by simpa using List.find?_some given
  have member := List.mem_of_find?_eq_some given
  have near : ∀ p ∈ bootpResponseProperties, p.2 ≤ 0x2a := by decide
  exact ⟨positive, near _ member⟩

/-- The check refuses only properties that end between the place of the packet and
its end. -/
theorem rejected_iff (given : c.response = some (propname, offset)) :
    ((c.proplen propname - offset) % 2 ^ 32).toNat < packetSize ↔
      (offset : Int) ≤ c.proplen propname ∧ c.proplen propname < offset + packetSize := by
  obtain ⟨positive, near⟩ := response_bounds given
  have word := c.int propname
  have size : packetSize = 236 := rfl
  omega

/-- The reply is used exactly if a property has it that the firmware can read, and not one whose
length reaches the packet without holding all of it. -/
theorem promGetNetinfo_some_iff {r : Response} : promGetNetinfo c = some r ↔
    ∃ propname offset bytes, c.response = some (propname, offset) ∧
      c.getprop propname = some bytes ∧
      ¬((offset : Int) ≤ c.proplen propname ∧ c.proplen propname < offset + packetSize) ∧
      r = ⟨(c.proplen propname).toNat, offset, bytes⟩ := by
  unfold promGetNetinfo
  constructor
  · intro found
    split at found
    · cases found
    · next propname offset given =>
      dsimp only at found
      split at found
      · cases found
      · next kept =>
        obtain ⟨bytes, got, rfl⟩ := Option.map_eq_some_iff.mp found
        exact ⟨propname, offset, bytes, given, got,
          fun short => kept ((rejected_iff given).mpr short), rfl⟩
  · rintro ⟨propname, offset, bytes, given, got, kept, rfl⟩
    rw [given]
    dsimp only
    rw [if_neg fun small => kept ((rejected_iff given).mp small), got]
    rfl

/-- Boot packets are handled in bounds exactly when there is none to be had, the
property is long enough for the packet's place but not for the packet, or the packet
is whole and its address has a fitting length. -/
theorem in_bounds_iff (w : World) (c : Chosen) (st : CfgState) :
    InBounds w c st ↔
      ∀ propname offset bytes, c.response = some (propname, offset) →
        c.getprop propname = some bytes →
          ((offset : Int) ≤ c.proplen propname ∧ c.proplen propname < offset + packetSize) ∨
          Sound (w.on c) st (c.proplen propname).toNat offset
            (⟨(c.proplen propname).toNat, offset, bytes⟩ : Response).packet := by
  constructor
  · intro inBounds propname offset bytes given got
    by_cases short : (offset : Int) ≤ c.proplen propname ∧ c.proplen propname < offset + packetSize
    · exact .inl short
    · have found := promGetNetinfo_some_iff.mpr
        ⟨propname, offset, bytes, given, got, short, rfl⟩
      have whole := inBounds.packet _ found
      obtain ⟨some_, name⟩ := (buffers_fit_iff _ _ _).mp (inBounds.room _ found)
      have address := (reads_inside_iff _ whole some_).mp (inBounds.reads _ found)
      exact .inr ⟨whole, address, some_, name⟩
  · intro sound
    have each : ∀ r, promGetNetinfo c = some r → Sound (w.on c) st r.size r.offset r.packet := by
      intro r found
      obtain ⟨propname, offset, bytes, given, got, kept, rfl⟩ := promGetNetinfo_some_iff.mp found
      exact (sound propname offset bytes given got).resolve_left kept
    refine ⟨fun r found => (each r found).whole, fun r found => ?_, fun r found => ?_⟩
    · have fine := each r found
      exact (reads_inside_iff r fine.whole fine.some_).mpr fine.address
    · have fine := each r found
      exact (buffers_fit_iff _ _ _).mpr ⟨fine.some_, fine.name⟩

/-- A firmware whose only packet property has twenty bytes. -/
def shortReply : Chosen where
  proplen name := if name = "bootpreply-packet" then 20 else -1
  int name := by split <;> decide
  getprop _ := some fun _ => 0

/-- The packet would start behind the property, and the check lets it pass. -/
theorem short_reply_passes : ¬ ∀ w c st, InBounds w c st := by
  intro right
  have whole := (right netWorld shortReply fresh).packet ⟨20, 0x2a, fun _ => 0⟩ rfl
  exact absurd whole (by decide)

end Yaboot.Netboot
