import Mathlib.Algebra.BigOperators.Group.Finset.Piecewise
import Mathlib.Order.Interval.Finset.Nat
import Yaboot.Netboot.AddressProofs
import Yaboot.Netboot.Args

/-! What the arguments of a network path are taken for, and how much of the one
allocation their copies fill. -/
namespace Yaboot.Netboot
open CString Strtol Fs

/-! ### Substrings -/

/-- What is found begins with the token and ends the text. -/
theorem strstrAt_some (found : strstrAt token s = some tmp) : token <+: tmp ∧ tmp <:+ s := by
  induction s with
  | nil =>
    unfold strstrAt at found
    split at found
    next empty =>
      cases found
      exact ⟨by rw [empty], List.suffix_refl _⟩
    next => cases found
  | cons c s ih =>
    unfold strstrAt at found
    split at found
    next here =>
      cases found
      exact ⟨here, List.suffix_refl _⟩
    next =>
      obtain ⟨starts, behind⟩ := ih found
      exact ⟨starts, behind.trans (List.suffix_cons c s)⟩

theorem strstrAt_ne_nil (found : strstrAt token s = some tmp) (nonempty : token ≠ []) :
    tmp ≠ [] := by
  rintro rfl
  exact nonempty (List.prefix_nil.mp (strstrAt_some found).1)

/-! ### What the copies fill -/

/-- How far copies can get: to the end of the source and its terminator. -/
def Copying.room (c : Copying) : Nat :=
  c.dest + if c.source = [] then 0 else c.source.length + 1

theorem Copying.dest_le_room (c : Copying) : c.dest ≤ c.room := Nat.le_add_right _ _

/-- A copy takes its bytes from the source. -/
theorem scopy_room (c : Copying) : (scopy c).2.room ≤ c.room := by
  unfold scopy
  split
  next => exact le_rfl
  next filled =>
    have whole := List.takeWhile_append_dropWhile (p := (· != 44)) (l := c.source)
    have total := congrArg List.length whole
    rw [List.length_append] at total
    unfold Copying.room
    dsimp only
    rw [if_neg filled]
    split
    next => omega
    next more =>
      have left := List.length_pos_of_ne_nil more
      rw [List.length_drop] at left ⊢
      omega

theorem scopyAddress_room (c : Copying) :
    (scopyAddress c).2.room ≤ c.room := scopy_room c

theorem ipv4Copies_room (c : Copying) (r : BootFspec) :
    (ipv4Copies c r).2.room ≤ c.room := by
  unfold ipv4Copies
  refine (scopyAddress_room _).trans ?_
  refine (scopy_room _).trans ?_
  refine (scopy_room _).trans ?_
  refine (scopyAddress_room _).trans ?_
  refine (scopyAddress_room _).trans ?_
  refine (scopy_room _).trans ?_
  exact scopyAddress_room c

theorem ipv4Copies_fit (before : UInt8) (path args : CStr) (r : BootFspec) :
    (ipv4Copies ⟨0, ipv4Source before path args⟩ r).2.dest ≤ ipv4Size args := by
  have room := ipv4Copies_room ⟨0, ipv4Source before path args⟩ r
  have shorter : (ipv4Source before path args).length ≤ args.length := by
    unfold ipv4Source
    split
    · exact (List.drop_suffix 1 args).length_le
    · exact le_rfl
  refine (Copying.dest_le_room _).trans (room.trans ?_)
  unfold Copying.room ipv4Size
  dsimp only
  split <;> omega

/-- The keys `extract_ipv6_args` looks for. -/
def ipv6Keys : List CStr :=
  [cstr "dhcpv6=", cstr "ciaddr=", cstr "giaddr=", cstr "siaddr=", cstr "filename=",
    cstr "tftp-retries=", cstr "blksize="]

/-- The bytes of a field from here on, with a terminator. -/
def fieldSize (tmp : CStr) : Nat := (tmp.takeWhile (· != 44)).length + 1

/-- The bytes copied for a key. -/
def keySize (path key : CStr) : Nat := ((strstrAt key path).map fieldSize).getD 0

theorem scopyKey_dest (path : CStr) (nonempty : key ≠ []) (old : Option CStr) (dest : Nat) :
    (scopyKey path key old dest).2 = dest + keySize path key := by
  unfold scopyKey keySize
  cases found : strstrAt key path with
  | none => rfl
  | some tmp =>
    have filled := strstrAt_ne_nil found nonempty
    dsimp only
    unfold scopy
    rw [if_neg filled]
    rfl

theorem ipv6Copies_dest (path : CStr) (r : BootFspec) :
    (ipv6Copies path r).2 = (ipv6Keys.map (keySize path)).sum := by
  unfold ipv6Copies ipv6Keys
  dsimp only
  rw [scopyKey_dest path (by decide), scopyKey_dest path (by decide),
    scopyKey_dest path (by decide), scopyKey_dest path (by decide), scopyKey_dest path (by decide),
    scopyKey_dest path (by decide), scopyKey_dest path (by decide)]
  simp only [List.map_cons, List.map_nil, List.sum_cons, List.sum_nil]
  omega

/-- Does the byte at `p` lie between the first occurrence of a key and the end of
its field? The end of the path has a byte too. -/
def covers (path : CStr) (p : Nat) (key : CStr) : Bool :=
  (strstrAt key path).any fun tmp =>
    decide (path.length - tmp.length ≤ p ∧ p < path.length - tmp.length + fieldSize tmp)

/-- How many keys a byte is copied for. -/
def copiedAt (path : CStr) (p : Nat) : Nat := ipv6Keys.countP (covers path p)

/-- The bytes that are copied again, each time they are. -/
def copiedAgain (path : CStr) : Nat :=
  ∑ p ∈ Finset.range (ipv6Size path), (copiedAt path p - 1)

/-- The bytes that are never copied. -/
def spared (path : CStr) : Nat :=
  ((Finset.range (ipv6Size path)).filter fun p => copiedAt path p = 0).card

/-- The size for a key counts the bytes that its value covers. -/
theorem keySize_covers (path key : CStr) :
    ((Finset.range (ipv6Size path)).filter fun p => covers path p key = true).card =
      keySize path key := by
  unfold covers keySize ipv6Size
  cases found : strstrAt key path with
  | none => simp
  | some tmp =>
    have shorter := (strstrAt_some found).2.length_le
    have inside : fieldSize tmp ≤ tmp.length + 1 :=
      Nat.succ_le_succ (List.takeWhile_prefix (p := (· != 44)) (l := tmp)).length_le
    have interval : ((Finset.range (path.length + 1)).filter fun p =>
        (some tmp).any (fun tmp => decide (path.length - tmp.length ≤ p ∧
          p < path.length - tmp.length + fieldSize tmp)) = true) =
        Finset.Ico (path.length - tmp.length) (path.length - tmp.length + fieldSize tmp) := by
      ext p
      simp only [Finset.mem_filter, Finset.mem_range, Option.any_some, decide_eq_true_eq,
        Finset.mem_Ico]
      omega
    rw [interval, Nat.card_Ico, Option.map_some, Option.getD_some]
    omega

/-- Counted by bytes or by keys the copies are the same. -/
theorem sum_countP (ks : List CStr) (test : Nat → CStr → Bool) (n : Nat) :
    ∑ p ∈ Finset.range n, ks.countP (test p) =
      (ks.map fun key => ((Finset.range n).filter fun p => test p key = true).card).sum := by
  induction ks with
  | nil => simp
  | cons key ks ih =>
    simp only [List.countP_cons, List.map_cons, List.sum_cons]
    rw [Finset.sum_add_distrib, ih, Finset.card_filter, Nat.add_comm]

/-- A sum stays within the number of its terms when what is above one is made up
for by what is zero. -/
theorem sum_le_iff (f : Nat → Nat) (n : Nat) :
    ∑ p ∈ Finset.range n, f p ≤ n ↔
      ∑ p ∈ Finset.range n, (f p - 1) ≤ ((Finset.range n).filter fun p => f p = 0).card := by
  have pointwise : ∑ p ∈ Finset.range n, f p + ((Finset.range n).filter fun p => f p = 0).card =
      ∑ p ∈ Finset.range n, (f p - 1) + n := by
    have ones : ∑ _p ∈ Finset.range n, 1 = n := by simp
    rw [Finset.card_filter, ← Finset.sum_add_distrib]
    calc ∑ p ∈ Finset.range n, (f p + if f p = 0 then 1 else 0)
        = ∑ p ∈ Finset.range n, (f p - 1 + 1) := by
          apply Finset.sum_congr rfl
          intro p _
          split <;> omega
      _ = ∑ p ∈ Finset.range n, (f p - 1) + n := by rw [Finset.sum_add_distrib, ones]
  omega

theorem ipv6Copies_fit_iff (path : CStr) (r : BootFspec) :
    (ipv6Copies path r).2 ≤ ipv6Size path ↔ copiedAgain path ≤ spared path := by
  have keys : (ipv6Keys.map (keySize path)).sum =
      ∑ p ∈ Finset.range (ipv6Size path), copiedAt path p := by
    unfold copiedAt
    rw [sum_countP]
    simp only [keySize_covers]
  rw [ipv6Copies_dest, keys]
  exact sum_le_iff _ _

/-- The copies of IPv4 arguments fit the memory taken for the path; those of IPv6 arguments fit when
no more of the path is copied again, for keywords inside a value, than is not copied at all. -/
theorem copies_fit_iff (before : UInt8) (path : CStr) (r : BootFspec) :
    (∀ args, ipv4Start path = some args →
      (ipv4Copies ⟨0, ipv4Source before path args⟩ r).2.dest ≤ ipv4Size args) ∧
      ((ipv6Copies path r).2 ≤ ipv6Size path ↔ copiedAgain path ≤ spared path) :=
  ⟨fun args _ => ipv4Copies_fit before path args r, ipv6Copies_fit_iff path r⟩

/-- In particular when no byte is copied for two keys. -/
theorem ipv6Copies_fit (apart : ∀ p, copiedAt path p ≤ 1) (r : BootFspec) :
    (ipv6Copies path r).2 ≤ ipv6Size path := by
  rw [ipv6Copies_fit_iff]
  have none : copiedAgain path = 0 := by
    unfold copiedAgain
    apply Finset.sum_eq_zero
    intro p _
    have once := apart p
    omega
  rw [none]
  exact Nat.zero_le _

/-- The copies of an address and a file. -/
theorem bootmeCopies_fit :
    (ipv4Copies ⟨0, ipv4Source 0 (cstr "enet:10.0.0.11,bootme") (cstr ":10.0.0.11,bootme")⟩
      BootFspec.zero).2.dest ≤ ipv4Size (cstr ":10.0.0.11,bootme") :=
  (copies_fit_iff 0 (cstr "enet:10.0.0.11,bootme") BootFspec.zero).1
    (cstr ":10.0.0.11,bootme") (by decide +kernel)

/-- A path with a key in the value of another, three times. -/
def nestedKeys : CStr := cstr "enet:ipv6,filename=ciaddr=giaddr=siaddr=1"

/-- Keywords inside the value of another are copied again with each, past the end of the memory. -/
theorem nestedKeys_overrun :
    ipv6Size nestedKeys < (ipv6Copies nestedKeys BootFspec.zero).2 := by
  decide +kernel

/-! ### Where keywords are found -/

theorem strstrAt_none_iff (nonempty : token ≠ []) (s : CStr) :
    strstrAt token s = none ↔ ¬ token <:+: s := by
  induction s with
  | nil =>
    unfold strstrAt
    rw [if_neg nonempty]
    exact iff_of_true rfl fun inside => nonempty (List.infix_nil.mp inside)
  | cons c s ih =>
    unfold strstrAt
    rw [List.infix_cons_iff]
    split
    next here => exact iff_of_false (by simp) fun apart => apart (.inl here)
    next later => rw [ih, not_or, and_iff_right later]

/-- A string without commas that starts in a field ends in it. -/
theorem prefix_field {token a b : CStr} (comma : 44 ∉ token) :
    token <+: a ++ 44 :: b ↔ token <+: a := by
  constructor
  · intro starts
    rcases List.prefix_or_prefix_of_prefix starts (List.prefix_append a (44 :: b)) with inside | past
    · exact inside
    · obtain ⟨more, rfl⟩ := past
      obtain ⟨rest, whole⟩ := starts
      rw [List.append_assoc, List.append_cancel_left_eq] at whole
      cases more with
      | nil => simp
      | cons c more =>
        rw [List.cons_append] at whole
        have same : c = 44 := (List.cons.inj whole).1
        exact absurd (by simp [same]) comma
  · exact fun starts => starts.trans (List.prefix_append a _)

/-- The search goes from field to field. -/
theorem strstrAt_field (comma : 44 ∉ token) (nonempty : token ≠ []) (a b : CStr) :
    strstrAt token (a ++ 44 :: b) =
      match strstrAt token a with
      | some tmp => some (tmp ++ 44 :: b)
      | none => strstrAt token b := by
  induction a with
  | nil =>
    have other : ¬ token <+: 44 :: b := by
      intro starts
      have empty := (prefix_field (a := []) comma).mp starts
      exact nonempty (List.prefix_nil.mp empty)
    simp [strstrAt, other, nonempty]
  | cons c a ih =>
    rw [List.cons_append, strstrAt, strstrAt, ih, ← List.cons_append]
    simp only [prefix_field comma]
    split <;> rfl

end Yaboot.Netboot
