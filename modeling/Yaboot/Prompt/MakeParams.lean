import Mathlib.Algebra.BigOperators.Group.List.Basic
import Mathlib.Data.List.GetD
import Yaboot.Base.Buffer
import Yaboot.Prompt.GateProofs

/-! The command line of the kernel as `make_params` writes it: string by string
into a static buffer, through a pointer that is moved by hand. -/
namespace Yaboot.Prompt
open CString Cfg Buffer

/-! ### The buffer -/

/-- The buffer, the pointer `q` into it, and the end of what was written. -/
structure Cursor where
  mem : Bytes
  q : Nat
  top : Nat

/-- `strcpy(buffer + at_, s)`. -/
def Cursor.strcpy (c : Cursor) (at_ : Nat) (s : CStr) : Cursor where
  mem := blit c.mem at_ (s.length + 1) fun k => s.getD k 0
  q := c.q
  top := max c.top (at_ + s.length + 1)

/-- `*q = b`. -/
def Cursor.store (c : Cursor) (b : UInt8) : Cursor where
  mem := Function.update c.mem c.q b
  q := c.q
  top := max c.top (c.q + 1)

/-- `*q++ = b`. -/
def Cursor.put (c : Cursor) (b : UInt8) : Cursor := { c.store b with q := c.q + 1 }

/-- The first zero byte from `q` on, among `n` bytes. -/
def seekZero (mem : Bytes) : Nat → Nat → Nat
  | 0, q => q
  | n + 1, q => if mem q = 0 then q else seekZero mem n (q + 1)

/-- `q = strchr(q, 0)`. -/
def Cursor.toEnd (c : Cursor) : Cursor := { c with q := seekZero c.mem (c.top - c.q) c.q }

/-- A string option with the text in front of it. -/
def Cursor.stringOption (c : Cursor) (text : String) (skip : Nat) (value : Option CStr) : Cursor :=
  match value with
  | some p => (((c.strcpy c.q (cstr text)).strcpy (c.q + skip) p).toEnd).put 32
  | none => c

/-- `read-only` and `read-write`. -/
def Cursor.flagOption (c : Cursor) (text : String) (flag : Bool) : Cursor :=
  if flag then { c.strcpy c.q (cstr text) with q := c.q + 3 } else c

def Cursor.novideo (c : Cursor) (flag : Bool) : Cursor :=
  if flag then ((c.strcpy c.q (cstr "video=ofonly")).toEnd).put 32 else c

def Cursor.append (c : Cursor) (value : Option CStr) : Cursor :=
  match value with
  | some p => ((c.strcpy c.q p).toEnd).put 32
  | none => c

/-- `strcpy(q, params)`, if there are any. -/
def Cursor.params (c : Cursor) (params : Option CStr) : Cursor :=
  match params with
  | some params => c.strcpy c.q params
  | none => c

/-- `make_params`, `old` being what its buffer holds from an earlier call. -/
def makeParamsIn (w : World) (label params : Option CStr) (old : Bytes) : Cursor :=
  let c : Cursor := ⟨Function.update old 0 0, 0, 1⟩
  match w.strg label "literal" with
  | some p =>
    let c := (c.strcpy c.q p).toEnd
    if params.isSome ∧ p ≠ [] then (c.put 32).params params else c.params params
  | none =>
    let c := c.stringOption "root=" 5 (w.strg label "root")
    let c := c.flagOption "ro " (w.flag label "read-only")
    let c := c.flagOption "rw " (w.flag label "read-write")
    let c := c.stringOption "ramdisk=" 8 (w.strg label "ramdisk")
    let c := c.stringOption "ramdisk_size=" 13 (w.strg label "initrd-size")
    let c := c.novideo (w.flag label "novideo")
    let c := c.append (w.strg label "append")
    (c.store 0).params params

/-- The string in the buffer. -/
def Cursor.text (c : Cursor) : CStr := strdup ((List.range c.top).map c.mem)

def bufferSize : Nat := 2048

/-! ### What is asked of it -/

/-- The strings are those a configuration and a line can have. -/
structure Strings (w : World) (label params : Option CStr) : Prop where
  values : ∀ item p, w.strg label item = some p → 0 ∉ p ∧ p.length ≤ 510
  params : ∀ p, params = some p → 0 ∉ p ∧ p.length ≤ 511

/-- The buffer has the command line in it, and is large enough. -/
structure MadeRight (w : World) (label params : Option CStr) (old : Bytes) : Prop where
  text : (makeParamsIn w label params old).text = makeParams w label params
  fits : (makeParamsIn w label params old).top ≤ bufferSize

/-- What the command line is made of without `literal`. -/
def pieces (w : World) (label params : Option CStr) : List CStr :=
  [stringOption w label "root" "root=", flagOption w label "read-only" "ro ",
    flagOption w label "read-write" "rw ", stringOption w label "ramdisk" "ramdisk=",
    stringOption w label "initrd-size" "ramdisk_size=", flagOption w label "novideo" "video=ofonly ",
    stringOption w label "append" "", params.getD []]

/-! ### Strings in the buffer -/

variable {c : Cursor} {s t : CStr} {w : World} {label given : Option CStr}

/-- The buffer begins with a string, and `q` is behind it. -/
structure Written (c : Cursor) (s : CStr) : Prop where
  q : c.q = s.length
  bytes : ∀ i < s.length, c.mem i = s.getD i 0
  top : c.top ≤ s.length + 1
  clean : 0 ∉ s

/-- The buffer holds a string with its terminator, and nothing was written behind. -/
structure Ended (c : Cursor) (s : CStr) : Prop where
  bytes : ∀ i ≤ s.length, c.mem i = s.getD i 0
  top : c.top = s.length + 1
  clean : 0 ∉ s

theorem strcpy_ended (bytes : ∀ i < s.length, c.mem i = s.getD i 0) (top : c.top ≤ s.length + 1)
    (clean : 0 ∉ s) (string : 0 ∉ t) : Ended (c.strcpy s.length t) (s ++ t) := by
  refine ⟨fun i le => ?_, ?_, by simp [clean, string]⟩
  · rw [List.length_append] at le
    unfold Cursor.strcpy
    dsimp only
    by_cases old : i < s.length
    · rw [blit_outside _ _ (.inl old), bytes i old, List.getD_append _ _ _ _ old]
    · rw [blit_inside _ _ (by omega) (by omega), List.getD_append_right _ _ _ _ (by omega)]
  · unfold Cursor.strcpy
    dsimp only
    rw [List.length_append]
    omega

theorem Written.strcpy (written : Written c s) (string : 0 ∉ t) :
    Ended (c.strcpy c.q t) (s ++ t) := by
  rw [written.q]
  exact strcpy_ended written.bytes written.top written.clean string

theorem seekZero_end {mem : Bytes} {n q : Nat} (nonzero : ∀ i, q ≤ i → i < last → mem i ≠ 0)
    (zero : mem last = 0) (before : q ≤ last) (room : last < q + n) : seekZero mem n q = last := by
  induction n generalizing q with
  | zero => omega
  | succ n ih =>
    unfold seekZero
    by_cases here : q = last
    · rw [here, if_pos zero]
    · rw [if_neg (nonzero q (Nat.le_refl q) (by omega))]
      exact ih (fun i low => nonzero i (by omega)) (by omega) (by omega)

theorem getD_ne_zero (clean : 0 ∉ s) (less : i < s.length) : s.getD i 0 ≠ 0 := by
  rw [List.getD_eq_getElem _ _ less]
  intro zero
  exact clean (zero ▸ List.getElem_mem less)

theorem Ended.toEnd (ended : Ended c s) (before : c.q ≤ s.length) : c.toEnd.q = s.length := by
  have top := ended.top
  apply seekZero_end
  · intro i _ less
    rw [ended.bytes i (by omega)]
    exact getD_ne_zero ended.clean less
  · rw [ended.bytes _ (Nat.le_refl _), List.getD_eq_default _ _ (Nat.le_refl _)]
  · exact before
  · omega

/-- A blank in place of the terminator. -/
theorem Ended.put (ended : Ended c s) (before : c.q ≤ s.length) :
    Written (c.toEnd.put 32) (s ++ [32]) := by
  have place := ended.toEnd before
  refine ⟨?_, fun i less => ?_, ?_, by simp [ended.clean]⟩
  · rw [List.length_append]
    exact congrArg (· + 1) place
  · rw [List.length_append, List.length_singleton] at less
    have byte : (c.toEnd.put 32).mem i = Function.update c.mem c.toEnd.q 32 i := rfl
    rw [byte, place]
    by_cases last : i = s.length
    · rw [last, Function.update_self, List.getD_append_right _ _ _ _ (Nat.le_refl _), Nat.sub_self]
      rfl
    · rw [Function.update_of_ne last, ended.bytes i (by omega), List.getD_append _ _ _ _ (by omega)]
  · have top : (c.toEnd.put 32).top = max c.top (c.toEnd.q + 1) := rfl
    rw [top, place, ended.top, List.length_append, List.length_singleton]
    omega

theorem Written.store (written : Written c s) : Ended (c.store 0) s := by
  refine ⟨fun i le => ?_, ?_, written.clean⟩
  · have byte : (c.store 0).mem i = Function.update c.mem c.q 0 i := rfl
    rw [byte, written.q]
    by_cases last : i = s.length
    · rw [last, Function.update_self, List.getD_eq_default _ _ (Nat.le_refl _)]
    · rw [Function.update_of_ne last, written.bytes i (by omega)]
  · have top : (c.store 0).top = max c.top (c.q + 1) := rfl
    have bound := written.top
    rw [top, written.q]
    omega

theorem Ended.params (ended : Ended c s) (place : c.q = s.length)
    (string : ∀ p, given = some p → 0 ∉ p) : Ended (c.params given) (s ++ given.getD []) := by
  cases given with
  | none =>
    rw [Option.getD_none, List.append_nil]
    exact ended
  | some p =>
    unfold Cursor.params
    dsimp only
    rw [place]
    exact strcpy_ended (fun i less => ended.bytes i (by omega)) (Nat.le_of_eq ended.top) ended.clean
      (string p rfl)

/-- The string is what is read back. -/
theorem Ended.text (ended : Ended c s) : c.text = s := by
  have bytes : (List.range s.length).map c.mem = s := by
    apply List.ext_getElem
    · simp
    · intro i _ less
      rw [List.getElem_map, List.getElem_range, ended.bytes i (by omega),
        List.getD_eq_getElem _ _ less]
  have zero : c.mem s.length = 0 := by
    rw [ended.bytes _ (Nat.le_refl _), List.getD_eq_default _ _ (Nat.le_refl _)]
  have passes : ∀ b ∈ s, (b != 0) = true := by
    intro b member
    rw [bne_iff_ne]
    exact fun same => ended.clean (same ▸ member)
  unfold Cursor.text strdup
  rw [ended.top, List.range_succ, List.map_append, bytes, List.map_singleton, zero,
    List.takeWhile_append_of_pos passes]
  exact List.append_nil s

/-! ### The options -/

/-- An option that is set adds its text and its value to the line, and else nothing. -/
theorem Written.addString (written : Written c s) (item text : String) (skip : Nat)
    (length : (cstr text).length = skip) (clean : 0 ∉ cstr text)
    (values : ∀ p, w.strg label item = some p → 0 ∉ p) :
    Written (c.stringOption text skip (w.strg label item)) (s ++ stringOption w label item text) := by
  unfold Cursor.stringOption Prompt.stringOption
  cases value : w.strg label item with
  | none =>
    rw [List.append_nil]
    exact written
  | some p =>
    dsimp only
    have front : Ended (c.strcpy c.q (cstr text)) (s ++ cstr text) := written.strcpy clean
    have place : c.q + skip = (s ++ cstr text).length := by
      rw [List.length_append, length, written.q]
    have whole : Ended ((c.strcpy c.q (cstr text)).strcpy (c.q + skip) p) (s ++ cstr text ++ p) := by
      rw [place]
      exact strcpy_ended (fun i less => front.bytes i (by omega)) (Nat.le_of_eq front.top)
        front.clean (values p value)
    have before : ((c.strcpy c.q (cstr text)).strcpy (c.q + skip) p).q ≤
        (s ++ cstr text ++ p).length := by
      rw [show ((c.strcpy c.q (cstr text)).strcpy (c.q + skip) p).q = c.q from rfl, written.q,
        List.append_assoc, List.length_append]
      exact Nat.le_add_right _ _
    have final := whole.put before
    rwa [List.append_assoc, List.append_assoc, ← List.append_assoc (cstr text)] at final

theorem Written.addFlag (written : Written c s) (w : World) (label : Option CStr) (item : String)
    {text : String} (length : (cstr text).length = 3) (clean : 0 ∉ cstr text) :
    Written (c.flagOption text (w.flag label item)) (s ++ flagOption w label item text) := by
  unfold Cursor.flagOption Prompt.flagOption
  cases w.flag label item with
  | false =>
    rw [if_neg (by decide), if_neg (by decide), List.append_nil]
    exact written
  | true =>
    rw [if_pos rfl, if_pos rfl]
    have ended : Ended (c.strcpy c.q (cstr text)) (s ++ cstr text) := written.strcpy clean
    refine ⟨?_, fun i less => ended.bytes i (by omega), Nat.le_of_eq ended.top, ended.clean⟩
    rw [List.length_append, length, ← written.q]

theorem Written.addNovideo (written : Written c s) (w : World) (label : Option CStr) :
    Written (c.novideo (w.flag label "novideo"))
      (s ++ flagOption w label "novideo" "video=ofonly ") := by
  unfold Cursor.novideo Prompt.flagOption
  cases w.flag label "novideo" with
  | false =>
    rw [if_neg (by decide), if_neg (by decide), List.append_nil]
    exact written
  | true =>
    rw [if_pos rfl, if_pos rfl]
    have ended : Ended (c.strcpy c.q (cstr "video=ofonly")) (s ++ cstr "video=ofonly") :=
      written.strcpy (by decide)
    have before : (c.strcpy c.q (cstr "video=ofonly")).q ≤ (s ++ cstr "video=ofonly").length := by
      rw [show (c.strcpy c.q (cstr "video=ofonly")).q = c.q from rfl, written.q, List.length_append]
      exact Nat.le_add_right _ _
    have final := ended.put before
    rwa [List.append_assoc, show cstr "video=ofonly" ++ [32] = cstr "video=ofonly " by decide] at final

theorem Written.addAppend (written : Written c s)
    (values : ∀ p, w.strg label "append" = some p → 0 ∉ p) :
    Written (c.append (w.strg label "append")) (s ++ stringOption w label "append" "") := by
  unfold Cursor.append Prompt.stringOption
  cases value : w.strg label "append" with
  | none =>
    rw [List.append_nil]
    exact written
  | some p =>
    dsimp only
    have ended : Ended (c.strcpy c.q p) (s ++ p) := written.strcpy (values p value)
    have before : (c.strcpy c.q p).q ≤ (s ++ p).length := by
      rw [show (c.strcpy c.q p).q = c.q from rfl, written.q, List.length_append]
      exact Nat.le_add_right _ _
    have final := ended.put before
    rwa [List.append_assoc] at final

theorem written_nil (old : Bytes) : Written ⟨Function.update old 0 0, 0, 1⟩ [] :=
  ⟨rfl, fun _ less => absurd less (Nat.not_lt_zero _), Nat.le_refl _, List.not_mem_nil⟩

/-! ### The command line -/

/-- The buffer holds the command line, and nothing was written behind its end. -/
theorem makeParamsIn_ended (strings : Strings w label given) (old : Bytes) :
    Ended (makeParamsIn w label given old) (makeParams w label given) := by
  have values : ∀ item p, w.strg label item = some p → 0 ∉ p :=
    fun item p value => (strings.values item p value).1
  have params : ∀ p, given = some p → 0 ∉ p := fun p same => (strings.params p same).1
  have empty := written_nil old
  unfold makeParamsIn makeParams
  cases literal : w.strg label "literal" with
  | some p =>
    dsimp only
    have ended : Ended (Cursor.strcpy ⟨Function.update old 0 0, 0, 1⟩ 0 p) p :=
      empty.strcpy (values _ p literal)
    have before : (Cursor.strcpy ⟨Function.update old 0 0, 0, 1⟩ 0 p).q ≤ p.length := Nat.zero_le _
    cases given with
    | none =>
      rw [if_neg (by simp)]
      exact ⟨ended.bytes, ended.top, ended.clean⟩
    | some ps =>
      by_cases none : p = []
      · rw [if_neg (by simp [none]), if_pos none, List.append_nil]
        have all : Ended (Cursor.strcpy ⟨Function.update old 0 0, 0, 1⟩ 0 p).toEnd p :=
          ⟨ended.bytes, ended.top, ended.clean⟩
        exact all.params (ended.toEnd before) params
      · rw [if_pos ⟨rfl, none⟩, if_neg none]
        have blank := ended.put before
        unfold Cursor.params
        exact blank.strcpy (params ps rfl)
  | none =>
    dsimp only
    have root := empty.addString "root" "root=" 5 (by decide) (by decide) (values "root")
    have ro := root.addFlag w label "read-only" (by decide : (cstr "ro ").length = 3) (by decide)
    have write := ro.addFlag w label "read-write" (by decide : (cstr "rw ").length = 3) (by decide)
    have ramdisk := write.addString "ramdisk" "ramdisk=" 8 (by decide) (by decide) (values "ramdisk")
    have size := ramdisk.addString "initrd-size" "ramdisk_size=" 13 (by decide) (by decide)
      (values "initrd-size")
    have whole := (size.addNovideo w label).addAppend (values "append")
    exact whole.store.params whole.q params

/-- How long the command line is without `literal`. -/
theorem makeParams_length (bare : w.strg label "literal" = none) :
    (makeParams w label given).length = ((pieces w label given).map List.length).sum := by
  unfold makeParams pieces
  rw [bare]
  simp

/-- `make_params` writes the command line that the options of an image and the arguments say,
exactly when `literal` is set or all pieces fit the buffer. -/
theorem make_params_iff (strings : Strings w label given) (old : Bytes) :
    MadeRight w label given old ↔
      (w.strg label "literal").isSome ∨ ((pieces w label given).map List.length).sum ≤ 2047 := by
  have ended := makeParamsIn_ended strings old
  have fits : (makeParamsIn w label given old).top ≤ bufferSize ↔
      (makeParams w label given).length ≤ 2047 := by
    rw [ended.top]
    exact Nat.succ_le_succ_iff
  have right : MadeRight w label given old ↔ (makeParams w label given).length ≤ 2047 :=
    ⟨fun made => fits.mp made.fits, fun short => ⟨ended.text, fits.mpr short⟩⟩
  rw [right]
  cases literal : w.strg label "literal" with
  | none =>
    rw [makeParams_length literal]
    simp
  | some p =>
    refine iff_of_true ?_ (.inl rfl)
    have value := (strings.values _ p literal).2
    unfold makeParams
    rw [literal]
    cases given with
    | none => exact value.trans (by decide)
    | some ps =>
      have line := (strings.params ps rfl).2
      dsimp only
      split
      · rw [List.append_nil, List.length_append]
        omega
      · rw [List.length_append, List.length_append, List.length_singleton]
        omega

/-- Every string of the tables is short and has no zero byte. -/
def Tables.Short (t : Tables) : Prop :=
  ∀ table ∈ t.options :: t.images.map Image.table, ∀ row ∈ table, ∀ p ∈ row.data,
    0 ∉ p ∧ p.length ≤ 510

instance (t : Tables) : Decidable (Tables.Short t) :=
  inferInstanceAs (Decidable (∀ table ∈ _, ∀ row ∈ table, ∀ p ∈ Config.data row, _ ∧ _))

/-- What is read of a configuration is in its tables. -/
theorem Tables.Short.strings (short : Tables.Short w.tables)
    (line : ∀ p, given = some p → 0 ∉ p ∧ p.length ≤ 511) : Strings w label given := by
  have row : ∀ table ∈ w.tables.options :: w.tables.images.map Image.table, ∀ item p,
      cfgGetStrgI table item = some p → 0 ∉ p ∧ p.length ≤ 510 := by
    intro table member item p value
    unfold cfgGetStrgI at value
    obtain ⟨walk, found, data⟩ := Option.bind_eq_some_iff.mp value
    exact short table member walk (List.mem_of_find?_eq_some found) p data
  refine ⟨fun item p value => ?_, line⟩
  unfold World.strg cfgGetStrg at value
  cases label with
  | none => exact row _ List.mem_cons_self _ p value
  | some image =>
    dsimp only at value
    cases found : w.tables.images.find? (answersTo w.lowString image) with
    | none =>
      rw [found] at value
      cases value
    | some i =>
      rw [found] at value
      dsimp only at value
      rcases Option.or_eq_some_iff.mp value with own | ⟨-, inherited⟩
      · have member := List.mem_map_of_mem (f := Image.table) (List.mem_of_find?_eq_some found)
        exact row _ (List.mem_cons_of_mem _ member) _ p own
      · exact row _ List.mem_cons_self _ p inherited

/-- An image with options of its own, and an argument. -/
theorem sampleWorld_made : MadeRight sampleWorld (some (cstr "b")) (some (cstr "single")) fun _ => 7 := by
  have short : Tables.Short sampleWorld.tables := by decide +kernel
  refine (make_params_iff (short.strings ?_) _).mpr (.inr (by decide +kernel))
  rintro p ⟨rfl⟩
  decide

/-- An image with four options of 510 characters. -/
def longWorld : World := { sampleWorld with
  tables :=
    ([(cstr "image", some (cstr "/a")), (cstr "root", some (List.replicate 510 97)),
      (cstr "ramdisk", some (List.replicate 510 97)),
      (cstr "initrd-size", some (List.replicate 510 97)),
      (cstr "append", some (List.replicate 510 97))] : List (CStr × Option CStr)).foldl
        (fun t entry => (cfgSet (fun _ => true) entry.1 entry.2 t).2) fresh.tables }

/-- Four options of 510 characters are more than the buffer holds. -/
theorem longWorld_overflows :
    ¬ ∀ (w : World) (label given : Option CStr) (old : Bytes), Strings w label given →
      MadeRight w label given old := by
  intro right
  have short : Tables.Short longWorld.tables := by decide +kernel
  have strings : Strings longWorld (some (cstr "a")) none := short.strings fun _ none => nomatch none
  have fits := (right longWorld (some (cstr "a")) none (fun _ => 0) strings).fits
  rw [(makeParamsIn_ended strings _).top] at fits
  have length : (makeParams longWorld (some (cstr "a")) none).length = 2070 := by decide +kernel
  rw [length] at fits
  exact absurd fits (by decide)

end Yaboot.Prompt
