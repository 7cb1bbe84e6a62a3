import Yaboot.Lib.StrtolProofs
import Yaboot.Netboot.Address

/-! Which strings `is_valid_ipv4_str` takes for addresses: the dotted quads, and
what `simple_strtol` and the loop let through besides. -/
namespace Yaboot.Netboot
open CString Strtol Word

/-! ### What is read as an octet -/

/-- The end of an octet. -/
def Stops (m : CStr) : Prop := m.headD 0 = 0 ∨ m.headD 0 = 46

/-- The octet a group is read as: its number, in a word. -/
def octet (g : CStr) : Nat := (number g % 2 ^ 32).toNat

/-- A group that is read as an octet: digits, if there are any, behind a minus, if
there is one, whose number fits an octet once it has wrapped around in a word. -/
structure LooseOctet (g : CStr) : Prop where
  text : Digits g
  fits : octet g ≤ 255

theorem Stops.not_digit (stop : Stops m) : m.head?.any isdigit = false := by
  cases m with
  | nil => rfl
  | cons c m =>
    rcases stop with zero | dot
    · rw [show c = 0 from zero]
      rfl
    · rw [show c = 46 from dot]
      rfl

theorem Stops.not_minus (stop : Stops m) : m.head? ≠ some 45 := by
  intro minus
  unfold Stops at stop
  rw [List.headD_eq_head?_getD, minus] at stop
  rcases stop with zero | dot
  · exact absurd zero (by decide)
  · exact absurd dot (by decide)

theorem headD_eq {m : CStr} {c : UInt8} (head : m.headD 0 = c) (nonzero : c ≠ 0) :
    ∃ rest, m = c :: rest := by
  cases m with
  | nil => exact absurd head.symm nonzero
  | cons d m => exact ⟨m, by rw [← show d = c from head]⟩

/-- What passes the test for an octet is its own remainder. -/
theorem octet_of_number (same : tmp % 2 ^ 32 = number g % 2 ^ 32) (small : tmp % 256 = tmp) :
    tmp.toNat = octet g ∧ octet g ≤ 255 := by
  unfold octet
  omega

/-- A loose octet in front of its end is what the reader of numbers takes, and it
passes the test. -/
theorem LooseOctet.read (loose : LooseOctet g) (stop : Stops rest) :
    simpleStrtol (g ++ rest) 10 = ((octet g : Int), rest) := by
  obtain ⟨left, same⟩ := simpleStrtol_digits loose.text stop.not_digit fun _ => stop.not_minus
  have range := simpleStrtol_range (g ++ rest) 10
  have fits := loose.fits
  refine Prod.ext ?_ left
  show (simpleStrtol (g ++ rest) 10).1 = octet g
  unfold octet at fits ⊢
  omega

/-- A round of the loop reads an octet. -/
theorem octetLoop_succ (left ip : Nat) (m : CStr) :
    octetLoop (left + 1) ip m = some found ↔
      ∃ g rest, m = g ++ rest ∧ LooseOctet g ∧ Stops rest ∧ (left ≠ 0 → rest.headD 0 ≠ 0) ∧
        octetLoop left (u32 (ip + octet g * 2 ^ (8 * left))) (rest.drop 1) = some found := by
  have round (tmp : Int) (rest : CStr) (number : simpleStrtol m 10 = (tmp, rest)) :
      octetLoop (left + 1) ip m =
        if tmp % 256 ≠ tmp then none
        else if rest.headD 0 = 0 ∧ left ≠ 0 then none
        else if rest.headD 0 ≠ 0 ∧ rest.headD 0 ≠ 46 then none
        else octetLoop left (u32 (ip + tmp.toNat * 2 ^ (8 * left))) (rest.drop 1) := by
    rw [octetLoop, number]
  constructor
  · intro loop
    obtain ⟨g, rest, cut, text, ends, other⟩ := digits_split m
    obtain ⟨behind, same⟩ := simpleStrtol_digits text ends other
    rw [← cut] at behind same
    have read : simpleStrtol m 10 = ((simpleStrtol m 10).1, rest) := by rw [← behind]
    rw [round _ _ read] at loop
    split_ifs at loop with large early stray
    obtain ⟨value, fits⟩ := octet_of_number same (not_not.mp large)
    rw [value] at loop
    have stop : Stops rest := by
      unfold Stops
      by_contra neither
      exact stray (not_or.mp neither)
    exact ⟨g, rest, cut, ⟨text, fits⟩, stop, fun more null => early ⟨null, more⟩, loop⟩
  · rintro ⟨g, rest, rfl, loose, stop, more, loop⟩
    have fits := loose.fits
    have small : ¬ (octet g : Int) % 256 ≠ octet g := by omega
    have early : ¬ (rest.headD 0 = 0 ∧ left ≠ 0) := fun both => more both.2 both.1
    have stray : ¬ (rest.headD 0 ≠ 0 ∧ rest.headD 0 ≠ 46) := by
      rintro ⟨nonzero, dotless⟩
      exact stop.elim nonzero dotless
    rw [round _ _ (loose.read stop), if_neg small, if_neg early, if_neg stray, Int.toNat_natCast]
    exact loop

/-! ### Four octets -/

/-- The address of four groups. -/
def address (a b c d : CStr) : Nat :=
  octet a * 2 ^ 24 + octet b * 2 ^ 16 + octet c * 2 ^ 8 + octet d

/-- Four groups with single dots between them, and behind the last one the end or
another dot. -/
def LooseQuad (s : CStr) (ip : Nat) : Prop :=
  ∃ a b c d rest, LooseOctet a ∧ LooseOctet b ∧ LooseOctet c ∧ LooseOctet d ∧ Stops rest ∧
    s = a ++ 46 :: (b ++ 46 :: (c ++ 46 :: (d ++ rest))) ∧ ip = address a b c d

theorem stops_dot {m : CStr} : Stops (46 :: m) := .inr rfl

/-- The loop takes just the loose quads. -/
theorem octetLoop_four (s : CStr) : octetLoop 4 0 s = some ip ↔ LooseQuad s ip := by
  have nonzero {m : CStr} : (46 :: m).headD 0 ≠ 0 :=
    fun same => absurd (show (46 : UInt8) = 0 from same) (by decide)
  have dotted {m : CStr} {left : Nat} (stop : Stops m) (more : left + 1 ≠ 0 → m.headD 0 ≠ 0) :
      ∃ behind, m = 46 :: behind :=
    headD_eq (stop.resolve_left (more (Nat.succ_ne_zero left))) (by decide)
  constructor
  · intro loop
    obtain ⟨a, m₁, rfl, first, stop₁, more₁, loop⟩ := (octetLoop_succ 3 0 s).mp loop
    obtain ⟨m₁, rfl⟩ := dotted stop₁ more₁
    obtain ⟨b, m₂, cut₂, second, stop₂, more₂, loop⟩ := (octetLoop_succ 2 _ _).mp loop
    obtain ⟨m₂, rfl⟩ := dotted stop₂ more₂
    obtain ⟨c, m₃, cut₃, third, stop₃, more₃, loop⟩ := (octetLoop_succ 1 _ _).mp loop
    obtain ⟨m₃, rfl⟩ := dotted stop₃ more₃
    obtain ⟨d, rest, cut₄, fourth, stop₄, -, loop⟩ := (octetLoop_succ 0 _ _).mp loop
    rw [List.drop_one, List.tail_cons] at cut₂ cut₃ cut₄
    refine ⟨a, b, c, d, rest, first, second, third, fourth, stop₄, ?_, ?_⟩
    · rw [cut₂, cut₃, cut₄]
    · have bounds := And.intro first.fits (And.intro second.fits (And.intro third.fits fourth.fits))
      have sum := Option.some.inj loop
      unfold u32 at sum
      unfold address
      omega
  · rintro ⟨a, b, c, d, rest, first, second, third, fourth, stop, rfl, rfl⟩
    have bounds := And.intro first.fits (And.intro second.fits (And.intro third.fits fourth.fits))
    refine (octetLoop_succ 3 0 _).mpr ⟨a, _, rfl, first, stops_dot, fun _ => nonzero, ?_⟩
    refine (octetLoop_succ 2 _ _).mpr ⟨b, _, rfl, second, stops_dot, fun _ => nonzero, ?_⟩
    refine (octetLoop_succ 1 _ _).mpr ⟨c, _, rfl, third, stops_dot, fun _ => nonzero, ?_⟩
    refine (octetLoop_succ 0 _ _).mpr ⟨d, _, rfl, fourth, stop, by simp, ?_⟩
    refine congrArg some ?_
    unfold u32 address
    omega

/-- The addresses that are refused. -/
def Reserved (ip : Nat) : Prop := ip = 0 ∨ ip = 2 ^ 32 - 1

/-- A string is accepted just when it reads as four octets and the address is not
reserved. -/
theorem isValid_iff (s : CStr) :
    isValidIpv4Str (some s) = some s ↔ ∃ ip, LooseQuad s ip ∧ ¬ Reserved ip := by
  unfold isValidIpv4Str
  dsimp only
  cases loop : octetLoop 4 0 s with
  | none =>
    refine iff_of_false (by simp) ?_
    rintro ⟨ip, loose, -⟩
    rw [(octetLoop_four _).mpr loose] at loop
    cases loop
  | some ip =>
    have loose := (octetLoop_four _).mp loop
    dsimp only
    split
    next reserved =>
      refine iff_of_false (by simp) ?_
      rintro ⟨ip', loose', free⟩
      rw [(octetLoop_four _).mpr loose'] at loop
      cases loop
      exact free reserved
    next free => exact iff_of_true rfl ⟨ip, loose, free⟩

/-! ### Dotted quads -/

/-- A group of digits whose value fits an octet. -/
structure Octet (g : CStr) : Prop where
  text : Decimal g
  fits : decimal g ≤ 255

/-- Four groups with single dots between them. -/
def DottedQuad (s : CStr) : Prop :=
  ∃ a b c d, Octet a ∧ Octet b ∧ Octet c ∧ Octet d ∧
    s = a ++ 46 :: (b ++ 46 :: (c ++ 46 :: d)) ∧
    ¬ Reserved (decimal a * 2 ^ 24 + decimal b * 2 ^ 16 + decimal c * 2 ^ 8 + decimal d)

theorem Octet.unsigned (strict : Octet g) : g.head? ≠ some 45 := by
  intro minus
  exact absurd (strict.text.digits 45 (List.mem_of_head? minus)) (by decide)

theorem Octet.octet (strict : Octet g) : octet g = decimal g := by
  have fits := strict.fits
  unfold Netboot.octet number
  rw [if_neg strict.unsigned]
  omega

theorem Octet.loose (strict : Octet g) : LooseOctet g where
  text := by
    unfold Digits
    rw [if_neg strict.unsigned]
    exact strict.text.digits
  fits := strict.octet ▸ strict.fits

theorem DottedQuad.loose (quad : DottedQuad s) : ∃ ip, LooseQuad s ip ∧ ¬ Reserved ip := by
  obtain ⟨a, b, c, d, first, second, third, fourth, rfl, free⟩ := quad
  refine ⟨address a b c d, ⟨a, b, c, d, [], first.loose, second.loose, third.loose, fourth.loose,
    .inl rfl, by rw [List.append_nil], rfl⟩, ?_⟩
  unfold address
  rwa [first.octet, second.octet, third.octet, fourth.octet]

/-! ### What `ipv4_to_str` writes -/

theorem unsigned_octets : ((List.range 256).all fun n => unsigned n != [] &&
    (unsigned n).all isdigit && decimal (unsigned n) == n) = true := by
  decide +kernel

theorem unsigned_octet (small : n < 256) : Octet (unsigned n) ∧ decimal (unsigned n) = n := by
  have holds := List.all_eq_true.mp unsigned_octets n (List.mem_range.mpr small)
  rw [Bool.and_eq_true, Bool.and_eq_true, bne_iff_ne, List.all_eq_true, beq_iff_eq] at holds
  obtain ⟨⟨nonempty, digits⟩, value⟩ := holds
  refine ⟨⟨⟨nonempty, digits⟩, ?_⟩, value⟩
  rw [value]
  exact Nat.le_of_lt_succ small

theorem ipv4ToStr_quad (ip : UInt32) (free : ¬ Reserved ip.toNat) : DottedQuad (ipv4ToStr ip) := by
  have bound := ip.toNat_lt
  obtain ⟨first, a⟩ := unsigned_octet (n := ip.toNat / 2 ^ 24) (by omega)
  obtain ⟨second, b⟩ := unsigned_octet (n := ip.toNat / 2 ^ 16 % 256) (by omega)
  obtain ⟨third, c⟩ := unsigned_octet (n := ip.toNat / 2 ^ 8 % 256) (by omega)
  obtain ⟨fourth, d⟩ := unsigned_octet (n := ip.toNat % 256) (by omega)
  refine ⟨_, _, _, _, first, second, third, fourth, ?_, ?_⟩
  · unfold ipv4ToStr
    simp
  · rw [a, b, c, d]
    have whole : ip.toNat / 2 ^ 24 * 2 ^ 24 + ip.toNat / 2 ^ 16 % 256 * 2 ^ 16 +
        ip.toNat / 2 ^ 8 % 256 * 2 ^ 8 + ip.toNat % 256 = ip.toNat := by
      omega
    rwa [whole]

theorem DottedQuad.ofWord (ip : UInt32) (written : s = ipv4ToStr ip) (free : ¬ Reserved ip.toNat) :
    DottedQuad s := by
  rw [written]
  exact ipv4ToStr_quad ip free

/-- Exactly the dotted quads are accepted, unless a string reads loosely as one
without being one: what lies behind a fourth dot is never looked at, a group may
be empty or have a minus, and large numbers wrap around. In any case what
`ipv4_to_str` writes is accepted. -/
theorem isValid_quads_iff (s : CStr) :
    ((isValidIpv4Str (some s) = some s ↔ DottedQuad s) ↔
      ((∃ ip, LooseQuad s ip ∧ ¬ Reserved ip) → DottedQuad s)) ∧
      ∀ ip, ¬ Reserved ip.toNat →
        isValidIpv4Str (some (ipv4ToStr ip)) = some (ipv4ToStr ip) := by
  constructor
  · rw [isValid_iff]
    exact ⟨fun same => same.mp, fun strict => ⟨strict, fun quad => quad.loose⟩⟩
  · intro ip free
    rw [isValid_iff]
    exact (ipv4ToStr_quad ip free).loose

/-- `127.0.0.1` is a dotted quad, and is accepted. -/
theorem loopback_accepted : isValidIpv4Str (some (ipv4ToStr 0x7f000001)) =
    some (ipv4ToStr 0x7f000001) :=
  (isValid_quads_iff []).2 0x7f000001 (by unfold Reserved; decide)

/-- An address with something behind it. -/
theorem trailing_accepted : ¬ ∀ s, isValidIpv4Str (some s) = some s ↔ DottedQuad s := by
  intro strict
  have quad := (strict (cstr "10.0.0.1.x")).mp (by decide +kernel)
  obtain ⟨a, b, c, d, first, second, third, fourth, bytes, -⟩ := quad
  have member : (120 : UInt8) ∈ cstr "10.0.0.1.x" := by decide
  rw [bytes] at member
  have none {g : CStr} (octet : Octet g) : (120 : UInt8) ∉ g := octet.text.not_mem (by decide)
  simp [none first, none second, none third, none fourth] at member

/-- What the reader lets through and refuses: numbers that wrap around, empty
groups and a lone minus pass, blanks and a plus do not. -/
example : isValidIpv4Str (some (cstr "4294967306.0.0.1")) ≠ none ∧
    isValidIpv4Str (some (cstr "1...-")) ≠ none ∧ isValidIpv4Str (some (cstr " 1.2.3.4")) = none ∧
    isValidIpv4Str (some (cstr "1.2.3.+4")) = none := by
  decide +kernel

end Yaboot.Netboot
