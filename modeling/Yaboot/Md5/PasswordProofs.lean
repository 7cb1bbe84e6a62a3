import Mathlib.Data.List.GetD
import Mathlib.Data.Nat.Size
import Yaboot.Md5.Crypt
import Yaboot.Md5.DigestProofs
import Yaboot.Md5.Password

/-! `md5_password` creates and checks the strings of md5-crypt. -/
namespace Yaboot.Md5
open Buffer CString

/-! ### What is hashed -/

theorem md5_length (m : List UInt8) : (Rfc1321.md5 m).length = 16 := rfl

theorem repeated_more {alt : List UInt8} (size : alt.length = 16) {i : Nat} (more : 16 < i) :
    Md5Crypt.repeated alt i = alt ++ Md5Crypt.repeated alt (i - 16) := by
  have first : (List.range 16).map (fun i => alt.getD (i % 16) 0) = alt := by
    apply List.ext_getElem
    · simp [size]
    · intro k inside _
      have below : k < 16 := by simpa using inside
      simp [Nat.mod_eq_of_lt below, List.getD_eq_getElem?_getD, size, below]
  unfold Md5Crypt.repeated
  conv_lhs => rw [show i = 16 + (i - 16) by omega, List.range_add, List.map_append, first, List.map_map]
  congr 1
  exact List.map_congr_left fun k _ => by simp

theorem repeated_rest {alt : List UInt8} (size : alt.length = 16) {i : Nat} (rest : i ≤ 16) :
    Md5Crypt.repeated alt i = alt.take i := by
  apply List.ext_getElem
  · simp [Md5Crypt.repeated, size, rest]
  · intro k inside _
    have below : k < i := by simpa [Md5Crypt.repeated] using inside
    simp [Md5Crypt.repeated, List.getD_eq_getElem?_getD, size, Nat.mod_eq_of_lt (below.trans_le rest),
      below.trans_le rest]

theorem updateAlt_consumed {alt : List UInt8} (size : alt.length = 16) (i : Nat) {md : Context}
    {m : List UInt8} (consumed : Consumed md m) :
    Consumed (updateAlt alt i md) (m ++ Md5Crypt.repeated alt i) := by
  induction i, md using updateAlt.induct alt generalizing m with
  | case1 i md more ih =>
    rw [updateAlt, if_pos more, repeated_more size more, ← List.append_assoc]
    have first := md5Update_consumed consumed (alt.take 16)
    rw [List.take_of_length_le size.le] at first ih ⊢
    exact ih first
  | case2 i md rest =>
    rw [updateAlt, if_neg rest, repeated_rest size (by omega)]
    exact md5Update_consumed consumed _

theorem bits_half {i : Nat} (pos : 0 < i) : i.bits = decide (i % 2 = 1) :: (i / 2).bits := by
  have bit : i = Nat.bit (decide (i % 2 = 1)) (i / 2) := by
    rw [Nat.bit_val]
    by_cases odd : i % 2 = 1
    · simp [odd]
      omega
    · simp [odd]
      omega
  conv_lhs => rw [bit]
  refine Nat.bits_append_bit _ _ fun zero => ?_
  have one : i % 2 = 1 := by omega
  simp [one]

theorem updateBits_consumed (key : CStr) (i : Nat) {md : Context} {m : List UInt8}
    (consumed : Consumed md m) : Consumed (updateBits key i md)
      (m ++ i.bits.map fun set => if set then 0 else key.getD 0 0) := by
  induction i, md using updateBits.induct key generalizing m with
  | case1 i md pos ih =>
    rw [updateBits, if_pos pos, bits_half pos, List.map_cons, List.append_cons]
    simp only [dite_eq_ite] at ih
    simp only [decide_eq_true_eq]
    exact ih (md5Update_consumed consumed _)
  | case2 i md zero =>
    obtain rfl : i = 0 := by omega
    rw [updateBits, if_neg zero]
    simpa using consumed

theorem lengthBits_length (key : List UInt8) (fits : key.length < 2 ^ 29) :
    (Md5Crypt.lengthBits key).length ≤ 29 := by
  unfold Md5Crypt.lengthBits
  rw [List.length_map, Nat.size_eq_bits_len]
  exact Nat.size_le.mpr fits

theorem Consumed.either {md : Context} {m : List UInt8} (consumed : Consumed md m) (c : Prop)
    [Decidable c] (yes no : List UInt8) :
    Consumed (if c then md5Update md yes else md5Update md no) (m ++ if c then yes else no) := by
  by_cases h : c
  · rw [if_pos h, if_pos h]
    exact md5Update_consumed consumed yes
  · rw [if_neg h, if_neg h]
    exact md5Update_consumed consumed no

theorem Consumed.maybe {md : Context} {m : List UInt8} (consumed : Consumed md m) (c : Prop)
    [Decidable c] (piece : List UInt8) :
    Consumed (if c then md5Update md piece else md) (m ++ if c then piece else []) := by
  by_cases h : c
  · rw [if_pos h, if_pos h]
    exact md5Update_consumed consumed piece
  · rw [if_neg h, if_neg h, List.append_nil]
    exact consumed

/-- A round hashes what the scheme says. -/
theorem rehash_digest {key salt : List UInt8} (short : salt.length ≤ 8)
    (fits : 2 * key.length + 32 < 2 ^ 29) {md : Context} {d : List UInt8} (same : md.digest = d)
    (size : d.length = 16) (i : Nat) :
    (rehash key salt md i).digest = Md5Crypt.round key salt d i := by
  have consumed := ((((md5Init_consumed md).either (i % 2 = 1) key d).maybe (i % 3 ≠ 0) salt).maybe
    (i % 7 ≠ 0) key).either (i % 2 = 1) d key
  unfold rehash Md5Crypt.round
  rw [same]
  dsimp only
  simp only [ne_eq, Nat.mod_two_ne_zero, List.nil_append] at consumed ⊢
  refine md5Final_digest consumed ?_
  have none : ([] : List UInt8).length = 0 := rfl
  rw [List.length_append, List.length_append, List.length_append]
  split_ifs <;> omega

theorem round_length (key salt d : List UInt8) (i : Nat) :
    (Md5Crypt.round key salt d i).length = 16 := md5_length _

theorem rehashes_digest {key salt : List UInt8} (short : salt.length ≤ 8)
    (fits : 2 * key.length + 32 < 2 ^ 29) (rounds : List Nat) {md : Context} {d : List UInt8}
    (same : md.digest = d) (size : d.length = 16) :
    (rounds.foldl (rehash key salt) md).digest = rounds.foldl (Md5Crypt.round key salt) d := by
  induction rounds generalizing md d with
  | nil => exact same
  | cons i rest ih =>
    exact ih (rehash_digest short fits same size i) (round_length key salt d i)

/-! ### The encoding -/

theorem characters_succ (n value : Nat) :
    Md5Crypt.characters (n + 1) value =
      Md5Crypt.alphabet.getD (value % 64) 0 :: Md5Crypt.characters n (value / 64) := by
  unfold Md5Crypt.characters
  rw [List.range_succ_eq_map, List.map_cons, List.map_map, Nat.pow_zero, Nat.div_one]
  congr 1
  refine List.map_congr_left fun k _ => ?_
  rw [Function.comp_apply, Nat.pow_succ', Nat.div_div_eq_div_mul]

theorem characters_length (n value : Nat) : (Md5Crypt.characters n value).length = n := by
  simp [Md5Crypt.characters]

/-- What the groups of a digest are encoded as. -/
def encoded (gs : List (Nat × Nat)) : List UInt8 := gs.flatMap fun g => Md5Crypt.characters g.1 g.2

theorem slice_cons (mem : Bytes) (p n : Nat) : slice mem p (n + 1) = mem p :: slice mem (p + 1) n := by
  rw [Nat.add_comm, slice_append]
  rfl

theorem b64t_alphabet : b64t = Md5Crypt.alphabet := rfl

/-- Checking compares the characters with what is there. -/
theorem putChars_checks (n w p : Nat) (mem : Bytes) :
    putChars true n w p mem =
      if slice mem p n = Md5Crypt.characters n w then some (p + n, mem) else none := by
  induction n generalizing w p with
  | zero => rfl
  | succ n ih =>
    rw [putChars, if_pos rfl, slice_cons, characters_succ, b64t_alphabet, ih,
      Nat.add_assoc, Nat.add_comm 1]
    by_cases same : mem p = Md5Crypt.alphabet.getD (w % 64) 0
    · simp only [same, ne_eq, not_true_eq_false, if_false, List.cons.injEq, true_and]
    · rw [if_pos same, if_neg fun equal => same (List.cons.inj equal).1]

/-- Creating writes the characters, and nothing else. -/
theorem putChars_writes (n w p : Nat) (mem : Bytes) :
    ∃ mem', putChars false n w p mem = some (p + n, mem') ∧
      slice mem' p n = Md5Crypt.characters n w ∧ ∀ i, i < p ∨ p + n ≤ i → mem' i = mem i := by
  induction n generalizing w p mem with
  | zero => exact ⟨mem, rfl, rfl, fun i _ => rfl⟩
  | succ n ih =>
    obtain ⟨mem', run, chars, kept⟩ := ih (w / 64) (p + 1)
      (blit mem p 1 fun _ => b64t.getD (w % 64) 0)
    refine ⟨mem', ?_, ?_, fun i outside => ?_⟩
    · rw [putChars, if_neg (by decide), run, Nat.add_assoc, Nat.add_comm 1]
    · rw [slice_cons, chars, characters_succ, kept p (by omega), blit_inside _ _ (by omega) (by omega),
        b64t_alphabet]
    · rw [kept i (by omega), blit_outside _ _ (by omega)]

theorem encoded_cons (g : Nat × Nat) (rest : List (Nat × Nat)) :
    encoded (g :: rest) = Md5Crypt.characters g.1 g.2 ++ encoded rest := List.flatMap_cons

theorem encoded_cons_length (g : Nat × Nat) (rest : List (Nat × Nat)) :
    (encoded (g :: rest)).length = g.1 + (encoded rest).length := by
  rw [encoded_cons, List.length_append, characters_length]

theorem putGroups_checks (gs : List (Nat × Nat)) (p : Nat) (mem : Bytes) :
    putGroups true gs p mem =
      if slice mem p (encoded gs).length = encoded gs then some (p + (encoded gs).length, mem)
      else none := by
  induction gs generalizing p with
  | nil => rfl
  | cons g rest ih =>
    have size : (slice mem p g.1).length = (Md5Crypt.characters g.1 g.2).length := by
      simp [slice, characters_length]
    rw [encoded_cons_length, slice_append, encoded_cons, putGroups, putChars_checks]
    by_cases same : slice mem p g.1 = Md5Crypt.characters g.1 g.2
    · rw [if_pos same, same]
      dsimp only
      rw [ih, Nat.add_assoc]
      simp only [List.append_cancel_left_eq]
    · rw [if_neg same, if_neg fun equal => same (List.append_inj equal size).1]

/-- The groups of six bits go to the buffer one behind the other, and nothing else is stored. -/
theorem putGroups_writes (gs : List (Nat × Nat)) (p : Nat) (mem : Bytes) :
    ∃ mem', putGroups false gs p mem = some (p + (encoded gs).length, mem') ∧
      slice mem' p (encoded gs).length = encoded gs ∧
      ∀ i, i < p ∨ p + (encoded gs).length ≤ i → mem' i = mem i := by
  induction gs generalizing p mem with
  | nil => exact ⟨mem, rfl, rfl, fun i _ => rfl⟩
  | cons g rest ih =>
    obtain ⟨mem₁, chars, written, kept⟩ := putChars_writes g.1 g.2 p mem
    obtain ⟨mem₂, run, written', kept'⟩ := ih (p + g.1) mem₁
    refine ⟨mem₂, ?_, ?_, fun i outside => ?_⟩
    · rw [putGroups, chars]
      dsimp only
      rw [run, encoded_cons_length, Nat.add_assoc]
    · rw [encoded_cons_length, slice_append, written', encoded_cons, ← written]
      congr 1
      exact slice_congr _ fun i inside => kept' _ (.inl (by omega))
    · rw [encoded_cons_length] at outside
      rw [kept' i (by omega), kept i (by omega)]

theorem triple_or (d : List UInt8) (high middle low : Nat) :
    (d.getD low 0).toNat ||| ((d.getD middle 0).toNat <<< 8) ||| ((d.getD high 0).toNat <<< 16) =
      Md5Crypt.triple d high middle low := by
  have lowest := (d.getD low 0).toNat_lt
  have next := (d.getD middle 0).toNat_lt
  unfold Md5Crypt.triple
  generalize (d.getD low 0).toNat = a at *
  generalize (d.getD middle 0).toNat = b at *
  generalize (d.getD high 0).toNat = c
  rw [Nat.or_comm a, ← Nat.shiftLeft_add_eq_or_of_lt (i := 8) lowest, Nat.or_comm,
    ← Nat.shiftLeft_add_eq_or_of_lt (i := 16) (by rw [Nat.shiftLeft_eq]; omega), Nat.shiftLeft_eq,
    Nat.shiftLeft_eq]
  omega

/-- The words `md5_password` builds from a digest are those of the scheme. -/
theorem encoded_groups (d : List UInt8) : encoded (groups d) = Md5Crypt.encode d := by
  unfold groups
  rw [show List.range 5 = [0, 1, 2, 3, 4] from rfl]
  simp only [List.map_cons, List.map_nil, List.cons_append, List.nil_append, encoded_cons, triple_or]
  unfold Md5Crypt.encode
  simp [encoded]

/-- No character of an encoding ends a string. -/
theorem encode_nonzero (d : List UInt8) : (0 : UInt8) ∉ Md5Crypt.encode d := by
  have char : ∀ k < 64, Md5Crypt.alphabet.getD k 0 ≠ 0 := by decide +kernel
  have chars : ∀ n value, (0 : UInt8) ∉ Md5Crypt.characters n value := by
    intro n value member
    obtain ⟨k, -, zero⟩ := List.mem_map.mp member
    exact char _ (Nat.mod_lt _ (by decide)) zero
  unfold Md5Crypt.encode
  simp only [List.mem_append, not_or]
  exact ⟨⟨⟨⟨⟨chars _ _, chars _ _⟩, chars _ _⟩, chars _ _⟩, chars _ _⟩, chars _ _⟩

/-! ### The whole -/

/-- What is hashed before the thousand rounds, and by them. -/
theorem hashed_digest {key salt : List UInt8} (short : salt.length ≤ 8)
    (fits : 2 * key.length + 64 < 2 ^ 29) (md : Context) {alt : Context}
    (first : alt = md5Final (md5Update (md5Update (md5Update (md5Init md) key) salt) key)) :
    ((List.range 1000).foldl (rehash key salt) (md5Final (updateBits key key.length
      (updateAlt alt.digest key.length (md5Update (md5Update (md5Init alt) key)
        (Md5Crypt.magic ++ salt)))))).digest = Md5Crypt.digest key salt := by
  have consumed := md5Update_consumed (md5Update_consumed (md5Update_consumed
    (md5Init_consumed md) key) salt) key
  have altDigest : alt.digest = Rfc1321.md5 (key ++ salt ++ key) := by
    rw [first, md5Final_digest consumed (by simp; omega)]
    rfl
  have second := updateBits_consumed key key.length (updateAlt_consumed (md5_length (key ++ salt ++ key))
    key.length (md5Update_consumed (md5Update_consumed (md5Init_consumed alt) key)
      (Md5Crypt.magic ++ salt)))
  have bits := lengthBits_length key (by omega)
  have start : (md5Final (updateBits key key.length (updateAlt alt.digest key.length
      (md5Update (md5Update (md5Init alt) key) (Md5Crypt.magic ++ salt))))).digest =
        Md5Crypt.start key salt := by
    rw [altDigest, md5Final_digest second]
    · unfold Md5Crypt.start
      congr 1
      simp [Md5Crypt.lengthBits]
    · unfold Md5Crypt.lengthBits at bits
      simp only [List.length_append, Md5Crypt.repeated, List.length_map, List.length_range,
        show Md5Crypt.magic.length = 3 from rfl, List.length_nil] at bits ⊢
      omega
  exact rehashes_digest short (by omega) (List.range 1000) start (md5_length _)

/-! ### The string in memory -/

theorem stored_inside (pre t : CStr) (behind : Bytes) {i : Nat} (inside : i < t.length) :
    stored (pre ++ t) behind (pre.length + i) = t[i] := by
  unfold stored
  rw [if_pos (by rw [List.length_append]; omega), List.getD_append_right _ _ _ _ (by omega),
    Nat.add_sub_cancel_left, List.getD_eq_getElem _ _ inside]

theorem stored_end (s : CStr) (behind : Bytes) : stored s behind s.length = 0 := by
  unfold stored
  rw [if_neg (lt_irrefl _), if_pos rfl]

theorem slice_stored (pre t : CStr) (behind : Bytes) {n : Nat} (inside : n ≤ t.length) :
    slice (stored (pre ++ t) behind) pre.length n = t.take n := by
  apply List.ext_getElem
  · simp [slice, inside]
  intro i below _
  have below : i < n := by simpa [slice] using below
  simp [slice, stored_inside _ _ behind (below.trans_le inside)]

/-- A tail in memory reads as `e` with a terminator exactly when it is `e`. -/
theorem tail_iff (pre : CStr) {t e : CStr} (behind : Bytes) (string : 0 ∉ t) (string' : 0 ∉ e) :
    slice (stored (pre ++ t) behind) pre.length e.length = e ∧
      stored (pre ++ t) behind (pre.length + e.length) = 0 ↔ t = e := by
  constructor
  · rintro ⟨same, ended⟩
    rcases Nat.lt_trichotomy t.length e.length with shorter | equal | longer
    · exfalso
      apply string'
      rw [← same]
      refine List.mem_map.mpr ⟨t.length, List.mem_range.mpr shorter, ?_⟩
      rw [← List.length_append]
      exact stored_end _ _
    · rw [← same, slice_stored _ _ _ equal.ge, ← equal, List.take_length]
    · exfalso
      apply string
      rw [← ended, stored_inside _ _ behind longer]
      exact List.getElem_mem longer
  · rintro rfl
    refine ⟨by rw [slice_stored _ _ _ le_rfl, List.take_length], ?_⟩
    rw [← List.length_append]
    exact stored_end _ _

theorem idxOf?_dollar {salt rest : CStr} (plain : 36 ∉ salt) :
    (salt ++ 36 :: rest).idxOf? 36 = some salt.length := by
  induction salt with
  | nil => rfl
  | cons c salt ih =>
    rw [List.mem_cons, not_or] at plain
    rw [List.cons_append, List.idxOf?_cons, ih plain.2]
    simp [Ne.symm plain.1]

section Outcome
variable {md : Context} {key salt : CStr} {behind : Bytes}

/-- The header, the salt and the dollar sign in front of a tail. -/
def headed (salt : CStr) : CStr := Md5Crypt.magic ++ salt ++ [36]

theorem headed_length (salt : CStr) : (headed salt).length = 3 + salt.length + 1 := by
  simp [headed, show Md5Crypt.magic.length = 3 from rfl]
  omega

theorem slice_headed (salt t : CStr) (behind : Bytes) :
    slice (stored (headed salt ++ t) behind) 0 (3 + salt.length + 1) = headed salt := by
  have whole := slice_stored [] (headed salt ++ t) behind
    (n := 3 + salt.length + 1) (by rw [List.length_append, headed_length]; omega)
  rw [List.nil_append, List.length_nil, ← headed_length, List.take_left] at whole
  rwa [← headed_length]

theorem slice_header (salt t : CStr) (behind : Bytes) :
    slice (stored (headed salt ++ t) behind) 0 (3 + salt.length) = Md5Crypt.magic ++ salt := by
  have split := slice_headed salt t behind
  rw [slice_append] at split
  refine (List.append_inj split ?_).1
  rw [List.length_append, slice, List.length_map, List.length_range]
  rfl

theorem slice_salt (salt t : CStr) (behind : Bytes) :
    slice (stored (headed salt ++ t) behind) 3 salt.length = salt := by
  have split := slice_header salt t behind
  rw [slice_append] at split
  exact (List.append_inj split rfl).2

theorem dollar_found (plain : 36 ∉ salt) (t : CStr) :
    ((headed salt ++ t).drop 3).idxOf? 36 = some salt.length := by
  have tail : (headed salt ++ t).drop 3 = salt ++ 36 :: t := by
    unfold headed
    rw [List.append_assoc, List.append_assoc]
    rfl
  rw [tail, idxOf?_dollar plain]

/-- Checking succeeds exactly on the encoding. -/
theorem md5Password_checks (plain : 36 ∉ salt) (short : salt.length ≤ 8)
    (fits : 2 * key.length + 64 < 2 ^ 29) {t : CStr} (string : 0 ∉ t) :
    ∃ r, md5Password md key (headed salt ++ t) behind true =
        some (r, stored (headed salt ++ t) behind) ∧
      (r = 0 ↔ t = Md5Crypt.encode (Md5Crypt.digest key salt)) := by
  have tail := tail_iff (headed salt) behind string
    (encode_nonzero (Md5Crypt.digest key salt))
  have hashed := hashed_digest short fits md rfl
  unfold md5Password
  rw [dollar_found plain, if_pos rfl, Option.bind_eq_bind, Option.bind_some]
  simp only [if_true, slice_salt, slice_header, hashed, putGroups_checks, encoded_groups]
  rw [headed_length] at tail
  by_cases same : slice (stored (headed salt ++ t) behind) (3 + salt.length + 1)
      (Md5Crypt.encode (Md5Crypt.digest key salt)).length = Md5Crypt.encode (Md5Crypt.digest key salt)
  · rw [if_pos same]
    refine ⟨_, rfl, ?_⟩
    rw [← tail, and_iff_right same]
    rw [Int.natCast_eq_zero, ← UInt8.toNat_inj]
    rfl
  · rw [if_neg same]
    exact ⟨1, rfl, iff_of_false (by decide) fun equal => same (tail.mpr equal).1⟩

/-- Storing the dollar sign that is there already changes nothing. -/
theorem blit_dollar (salt t : CStr) (behind : Bytes) :
    blit (stored (headed salt ++ t) behind) (3 + salt.length) 1 (fun _ => 36) =
      stored (headed salt ++ t) behind := by
  funext i
  by_cases here : i = 3 + salt.length
  · subst here
    have dollar := stored_inside (Md5Crypt.magic ++ salt) (36 :: t) (i := 0) behind
      (Nat.zero_lt_succ _)
    rw [List.append_cons, List.length_append] at dollar
    rw [blit_inside _ _ le_rfl (by omega)]
    exact dollar.symm
  · exact blit_outside _ _ (by omega)

/-- Creating leaves the whole string, with its terminator. -/
theorem md5Password_creates (plain : 36 ∉ salt) (short : salt.length ≤ 8)
    (fits : 2 * key.length + 64 < 2 ^ 29) (rest : CStr) :
    ∃ r mem, md5Password md key (headed salt ++ rest) behind false = some (r, mem) ∧
      slice mem 0 (Md5Crypt.crypt key salt).length = Md5Crypt.crypt key salt ∧
      mem (Md5Crypt.crypt key salt).length = 0 := by
  have hashed := hashed_digest short fits md rfl
  have width : (if salt.length < 8 then salt.length else 8) = salt.length := by
    split_ifs <;> omega
  unfold md5Password
  rw [dollar_found plain, if_neg (by decide)]
  dsimp only
  rw [width, Option.bind_eq_bind, Option.bind_some]
  simp only [Bool.false_eq_true, if_false, blit_dollar, slice_salt, slice_header, hashed]
  obtain ⟨mem, run, written, kept⟩ := putGroups_writes (groups (Md5Crypt.digest key salt))
    (3 + salt.length + 1) (stored (headed salt ++ rest) behind)
  rw [encoded_groups] at run written kept
  rw [run]
  have whole : Md5Crypt.crypt key salt = headed salt ++ Md5Crypt.encode (Md5Crypt.digest key salt) :=
    rfl
  refine ⟨_, _, rfl, ?_, ?_⟩
  · rw [whole, List.length_append, headed_length, slice_append, Nat.zero_add]
    refine congrArg₂ (· ++ ·) ?_ ?_
    · rw [← slice_headed salt rest behind]
      refine slice_congr _ fun i inside => ?_
      rw [blit_outside _ _ (.inl (by omega)), kept _ (.inl (by omega))]
    · refine Eq.trans (slice_congr mem fun i inside => ?_) written
      rw [blit_outside _ _ (.inl (by omega))]
  · rw [whole, List.length_append, headed_length, blit_inside _ _ le_rfl (by omega)]

end Outcome

/-- `md5_password` writes the string of md5-crypt, and accepts behind the salt exactly
its encoding. -/
theorem md5Password_agrees (md : Context) (key salt : CStr) (behind : Bytes) (plain : 36 ∉ salt)
    (short : salt.length ≤ 8) (fits : 2 * key.length + 64 < 2 ^ 29) :
    (∀ rest, ∃ r mem, md5Password md key (headed salt ++ rest) behind false = some (r, mem) ∧
      slice mem 0 (Md5Crypt.crypt key salt).length = Md5Crypt.crypt key salt ∧
      mem (Md5Crypt.crypt key salt).length = 0) ∧
    ∀ t, 0 ∉ t → ∃ r, md5Password md key (headed salt ++ t) behind true =
        some (r, stored (headed salt ++ t) behind) ∧
      (r = 0 ↔ t = Md5Crypt.encode (Md5Crypt.digest key salt)) :=
  ⟨md5Password_creates plain short fits, fun _ string => md5Password_checks plain short fits string⟩

/-- The key, the salt and the encoding tested in `md5.c`. -/
theorem md5Password_agrees_hello :
    ∃ r, md5Password ⟨initstate, 0, fun _ => 0⟩ (cstr "Hello world!")
        (headed (cstr "saltstri") ++ cstr "YMyguxXMBpd2TEZ.vS/3q1") (fun _ => 0) true =
        some (r, stored (headed (cstr "saltstri") ++ cstr "YMyguxXMBpd2TEZ.vS/3q1") fun _ => 0) ∧
      (r = 0 ↔ cstr "YMyguxXMBpd2TEZ.vS/3q1" =
        Md5Crypt.encode (Md5Crypt.digest (cstr "Hello world!") (cstr "saltstri"))) :=
  (md5Password_agrees ⟨initstate, 0, fun _ => 0⟩ (cstr "Hello world!") (cstr "saltstri") (fun _ => 0)
    (by decide) (by decide) (by decide)).2 _ (by decide)

end Yaboot.Md5
