import Yaboot.Fs.DevicePathProofs
import Yaboot.Netboot.ArgsProofs

/-! The argument list of obp-tftp. Keywords are searched for in the whole list, so
a file name that holds one is taken for an optional parameter. -/
namespace Yaboot.Netboot
open CString Strtol Fs

/-! ### Lists -/

/-- Fields with commas between them. -/
def joined : List CStr → CStr
  | [] => []
  | [field] => field
  | field :: more => field ++ 44 :: joined more

theorem joined_cons (field : CStr) (more : List CStr) (filled : more ≠ []) :
    joined (field :: more) = field ++ 44 :: joined more := by
  cases more with
  | nil => exact absurd rfl filled
  | cons next more => rfl

/-- Up to a comma, which is passed over. -/
theorem scopy_field (dest : Nat) {field : CStr} (comma : 44 ∉ field) (rest : CStr) :
    scopy ⟨dest, field ++ 44 :: rest⟩ = (some field, ⟨dest + field.length + 1, rest⟩) := by
  have passes : ∀ c ∈ field, (c != 44) = true := by
    intro c member
    rw [bne_iff_ne]
    rintro rfl
    exact comma member
  have filled : field ++ 44 :: rest ≠ [] := by simp
  unfold scopy
  simp only [if_neg filled, List.takeWhile_append_of_pos passes,
    List.dropWhile_append_of_pos passes]
  simp

/-- The first field is copied. It may be empty where others follow. -/
theorem scopy_joined (dest : Nat) (comma : ∀ field ∈ fields.head?, 44 ∉ field)
    (last : fields.getLast? ≠ some []) :
    ∃ dest', scopy ⟨dest, joined fields⟩ = (fields.head?, ⟨dest', joined fields.tail⟩) := by
  cases fields with
  | nil => exact ⟨dest, rfl⟩
  | cons field more =>
    refine ⟨dest + field.length + 1, ?_⟩
    cases more with
    | nil =>
      have passes : ∀ c ∈ field, (c != 44) = true := by
        intro c member
        rw [bne_iff_ne]
        rintro rfl
        exact comma field rfl member
      have filled : field ≠ [] := by
        rintro rfl
        exact last rfl
      have taken := List.takeWhile_eq_self_iff.mpr passes
      have dropped := List.dropWhile_eq_nil_iff.mpr passes
      unfold scopy
      simp [joined, filled, taken, dropped]
    | cons next more =>
      rw [joined_cons _ _ (by simp)]
      exact scopy_field dest (comma field rfl) _

/-- An address that is accepted. -/
def Settled (s : CStr) : Prop := isValidIpv4Str (some s) = some s

theorem scopyAddress_joined (dest : Nat)
    (comma : ∀ field ∈ fields.head?, 44 ∉ field) (last : fields.getLast? ≠ some [])
    (settled : ∀ field ∈ fields.head?, Settled field) :
    ∃ dest', scopyAddress ⟨dest, joined fields⟩ =
      (fields.head?, ⟨dest', joined fields.tail⟩) := by
  obtain ⟨dest', copied⟩ := scopy_joined dest comma last
  refine ⟨dest', ?_⟩
  unfold scopyAddress
  rw [copied]
  cases head : fields.head? with
  | none => rfl
  | some field => exact Prod.ext (settled field head) rfl

/-- The places of addresses among the fields. -/
def addressAt : List Nat := [0, 2, 3, 6]

/-- Fields that can be told apart again. -/
structure Fields (fields : List CStr) : Prop where
  comma : ∀ i < 7, ∀ field ∈ fields[i]?, 44 ∉ field
  last : fields.getLast? ≠ some []
  settled : ∀ i ∈ addressAt, ∀ field ∈ fields[i]?, Settled field

theorem head?_drop (fields : List CStr) (i : Nat) : (fields.drop i).head? = fields[i]? := by
  rw [List.head?_drop]

theorem Fields.drop_last (ok : Fields fields) (i : Nat) : (fields.drop i).getLast? ≠ some [] := by
  intro empty
  rw [List.getLast?_drop] at empty
  split at empty
  · cases empty
  · exact ok.last empty

theorem Fields.copy (ok : Fields fields) {i : Nat} (inside : i < 7) (dest : Nat) :
    ∃ dest', scopy ⟨dest, joined (fields.drop i)⟩ =
      (fields[i]?, ⟨dest', joined (fields.drop (i + 1))⟩) := by
  have comma := ok.comma i inside
  rw [← head?_drop] at comma ⊢
  rw [← List.tail_drop]
  exact scopy_joined dest comma (ok.drop_last i)

theorem Fields.copyAddress (ok : Fields fields) {i : Nat} (here : i ∈ addressAt)
    (inside : i < 7) (dest : Nat) :
    ∃ dest', scopyAddress ⟨dest, joined (fields.drop i)⟩ =
      (fields[i]?, ⟨dest', joined (fields.drop (i + 1))⟩) := by
  have comma := ok.comma i inside
  have settled := ok.settled i here
  rw [← head?_drop] at comma settled ⊢
  rw [← List.tail_drop]
  exact scopyAddress_joined dest comma (ok.drop_last i) settled

/-- The fields are read in order, and what comes behind the seventh is left. -/
theorem Fields.copies (ok : Fields fields) (dest : Nat) (r : BootFspec) :
    ∃ dest', ipv4Copies ⟨dest, joined fields⟩ r =
      ({ r with
          siaddr := fields[0]?
          file := fields[1]?
          ciaddr := fields[2]?
          giaddr := fields[3]?
          bootpRetries := fields[4]?
          tftpRetries := fields[5]?
          subnetmask := fields[6]? }, ⟨dest', joined (fields.drop 7)⟩) := by
  obtain ⟨d₁, siaddr⟩ := ok.copyAddress (i := 0) (by decide) (by decide) dest
  obtain ⟨d₂, file⟩ := ok.copy (i := 1) (by decide) d₁
  obtain ⟨d₃, ciaddr⟩ := ok.copyAddress (i := 2) (by decide) (by decide) d₂
  obtain ⟨d₄, giaddr⟩ := ok.copyAddress (i := 3) (by decide) (by decide) d₃
  obtain ⟨d₅, bootp⟩ := ok.copy (i := 4) (by decide) d₄
  obtain ⟨d₆, tftp⟩ := ok.copy (i := 5) (by decide) d₅
  obtain ⟨d₇, mask⟩ := ok.copyAddress (i := 6) (by decide) (by decide) d₆
  refine ⟨d₇, ?_⟩
  rw [List.drop_zero] at siaddr
  unfold ipv4Copies
  simp only [siaddr, file, ciaddr, giaddr, bootp, tftp, mask]

/-! ### Requests -/

/-- An optional parameter. -/
structure Parameter where
  key : CStr
  value : CStr
  known : key ∈ keywords
  plain : ∀ c ∈ value, c ≠ 44 ∧ c ≠ 58
  alone : ∀ other ∈ keywords, other <:+: key ++ value → other = key

/-- What obp-tftp is asked for. -/
structure TftpArgs where
  siaddr : CStr
  file : CStr
  ciaddr : CStr
  giaddr : CStr
  bootpRetries : CStr
  tftpRetries : CStr
  server : DottedQuad siaddr
  name : 44 ∉ file ∧ 58 ∉ file
  client : DottedQuad ciaddr
  gateway : DottedQuad giaddr
  bootp : Decimal bootpRetries
  tftp : Decimal tftpRetries

/-- The fields up to one of the six. -/
def TftpArgs.fields (a : TftpArgs) (last : Fin 6) : List CStr :=
  [a.siaddr, a.file, a.ciaddr, a.giaddr, a.bootpRetries, a.tftpRetries].take (last + 1)

/-- A parameter and the comma behind it. -/
def leading : Option Parameter → CStr
  | none => []
  | some p => p.key ++ p.value ++ [44]

def TftpArgs.path (a : TftpArgs) (dev : CStr) (lead : Option Parameter) (last : Fin 6) : CStr :=
  dev ++ 58 :: (leading lead ++ joined (a.fields last))

/-- What is to be read from it. -/
def TftpArgs.read (a : TftpArgs) (last : Fin 6) (r : BootFspec) : BootFspec :=
  { r with
    siaddr := (a.fields last)[0]?
    file := (a.fields last)[1]?
    ciaddr := (a.fields last)[2]?
    giaddr := (a.fields last)[3]?
    bootpRetries := (a.fields last)[4]?
    tftpRetries := (a.fields last)[5]?
    subnetmask := none }

/-- The name holds no keyword but the one in front of the list, it is not empty at
the end of the list, and there is one colon in front of a list without parameters. -/
structure TftpArgs.Plain (a : TftpArgs) (before : UInt8) (dev : CStr) (lead : Option Parameter)
    (last : Fin 6) : Prop where
  device : lead = none → dev.getLastD before ≠ 58
  keyword : last ≠ 0 → ∀ key ∈ keywords, key <:+: a.file → lead.map Parameter.key = some key
  named : last = 1 → a.file ≠ []

/-! ### The copies -/

theorem DottedQuad.valid (quad : DottedQuad s) : isValidIpv4Str (some s) = some s :=
  (isValid_iff s).mpr quad.loose

theorem DottedQuad.chars (quad : DottedQuad s) : s ≠ [] ∧ ∀ c ∈ s, isdigit c = true ∨ c = 46 := by
  obtain ⟨a, b, c, d, first, second, third, fourth, rfl, -⟩ := quad
  refine ⟨by simp, fun x member => ?_⟩
  simp only [List.mem_append, List.mem_cons] at member
  rcases member with inA | rfl | inB | rfl | inC | rfl | inD
  · exact .inl (first.text.digits x inA)
  · exact .inr rfl
  · exact .inl (second.text.digits x inB)
  · exact .inr rfl
  · exact .inl (third.text.digits x inC)
  · exact .inr rfl
  · exact .inl (fourth.text.digits x inD)

theorem DottedQuad.not_mem (quad : DottedQuad s) {c : UInt8} (other : isdigit c = false)
    (dotless : c ≠ 46) : c ∉ s := by
  intro member
  rcases quad.chars.2 c member with digit | dot
  · rw [digit] at other
    cases other
  · exact dotless dot

theorem TftpArgs.mem_fields (a : TftpArgs) (member : field ∈ a.fields last) :
    field = a.file ∨ DottedQuad field ∨ Decimal field := by
  have whole := List.mem_of_mem_take member
  simp only [List.mem_cons, List.not_mem_nil, or_false] at whole
  rcases whole with rfl | rfl | rfl | rfl | rfl | rfl
  · exact .inr (.inl a.server)
  · exact .inl rfl
  · exact .inr (.inl a.client)
  · exact .inr (.inl a.gateway)
  · exact .inr (.inr a.bootp)
  · exact .inr (.inr a.tftp)

/-- No field has a comma or a colon. -/
theorem TftpArgs.fields_free (a : TftpArgs) (member : field ∈ a.fields last) :
    44 ∉ field ∧ 58 ∉ field := by
  rcases a.mem_fields member with rfl | quad | text
  · exact a.name
  · exact ⟨quad.not_mem (by decide) (by decide), quad.not_mem (by decide) (by decide)⟩
  · exact ⟨text.not_mem (by decide), text.not_mem (by decide)⟩

/-- The fields of a list, up to any of them, are free of commas, and the last is not empty. -/
theorem TftpArgs.fields_ok (a : TftpArgs) (last : Fin 6) (named : last = 1 → a.file ≠ []) :
    Fields (a.fields last) where
  comma i _ field held := (a.fields_free (List.mem_of_getElem? held)).1
  last := by
    have server := a.server.chars.1
    have client := a.client.chars.1
    have gateway := a.gateway.chars.1
    have bootp := a.bootp.nonempty
    have tftp := a.tftp.nonempty
    unfold TftpArgs.fields
    match last with
    | 0 => simpa using server
    | 1 => simpa using named rfl
    | 2 => simpa using client
    | 3 => simpa using gateway
    | 4 => simpa using bootp
    | 5 => simpa using tftp
  settled i here field held := by
    have whole : [a.siaddr, a.file, a.ciaddr, a.giaddr, a.bootpRetries, a.tftpRetries][i]? =
        some field := by
      unfold TftpArgs.fields at held
      rw [List.getElem?_take] at held
      split at held
      · exact held
      · cases held
    simp only [addressAt, List.mem_cons, List.not_mem_nil, or_false] at here
    rcases here with rfl | rfl | rfl | rfl
    · rw [← show a.siaddr = field by simpa using whole]
      exact a.server.valid
    · rw [← show a.ciaddr = field by simpa using whole]
      exact a.client.valid
    · rw [← show a.giaddr = field by simpa using whole]
      exact a.gateway.valid
    · simp at whole

/-! ### The search -/

/-- What all keywords have in common. -/
theorem keyword_facts (known : key ∈ keywords) :
    key ≠ [] ∧ 44 ∉ key ∧ 58 ∉ key ∧ ∃ c ∈ key, isdigit c = false ∧ c ≠ 46 := by
  have all : ∀ key ∈ keywords, key ≠ [] ∧ 44 ∉ key ∧ 58 ∉ key ∧
      ∃ c ∈ key, isdigit c = false ∧ c ≠ 46 := by
    decide +kernel
  exact all key known

theorem DottedQuad.no_keyword (quad : DottedQuad s) (known : key ∈ keywords) : ¬ key <:+: s := by
  obtain ⟨-, -, -, c, member, other, dotless⟩ := keyword_facts known
  exact fun inside => quad.not_mem other dotless (inside.subset member)

theorem no_keyword_decimal (text : Decimal s) (known : key ∈ keywords) : ¬ key <:+: s := by
  obtain ⟨-, -, -, c, member, other, -⟩ := keyword_facts known
  exact fun inside => text.not_mem other (inside.subset member)

/-- Fields have a keyword only where one of them has it. -/
theorem joined_no_keyword (known : key ∈ keywords)
    (none : ∀ field ∈ fields, ¬ key <:+: field) : ¬ key <:+: joined fields := by
  obtain ⟨nonempty, comma, -⟩ := keyword_facts known
  induction fields with
  | nil => exact fun inside => nonempty (List.infix_nil.mp inside)
  | cons field more ih =>
    cases more with
    | nil => exact none field (by simp)
    | cons next more =>
      have first := (strstrAt_none_iff nonempty field).mpr (none field (by simp))
      have later := (strstrAt_none_iff nonempty _).mpr
        (ih fun field member => none field (List.mem_cons_of_mem _ member))
      rw [joined_cons _ _ (by simp), ← strstrAt_none_iff nonempty,
        strstrAt_field comma nonempty, first]
      exact later

theorem strstrAt_cons (other : c ∉ token) (nonempty : token ≠ []) (s : CStr) :
    strstrAt token (c :: s) = strstrAt token s := by
  have apart : ¬ token <+: c :: s := by
    intro starts
    obtain ⟨d, more, rfl⟩ := List.exists_cons_of_ne_nil nonempty
    have same := (List.cons_prefix_cons.mp starts).1
    exact other (by simp [same])
  rw [strstrAt, if_neg apart]

/-- The part of the arguments a search is in: in front of the file name, or
already in it. -/
inductive Reached (lead : Option CStr) (file rest : CStr) : Bool → CStr → Prop
  | early (none : ∀ key ∈ keywords, lead ≠ some key → ¬ key <:+: front) :
      Reached lead file rest false (front ++ 44 :: (file ++ rest))
  | late (inside : back <:+ file) : Reached lead file rest true (back ++ rest)

/-- Nothing, or a comma and fields without keywords. -/
def Follows (rest : CStr) : Prop :=
  rest = [] ∨ ∃ more, rest = 44 :: more ∧ ∀ key ∈ keywords, ¬ key <:+: more

/-- A name is searched as if nothing followed. -/
theorem strstrAt_follows (known : key ∈ keywords) (follows : Follows rest) (s : CStr) :
    strstrAt key (s ++ rest) = (strstrAt key s).map (· ++ rest) := by
  obtain ⟨nonempty, comma, -⟩ := keyword_facts known
  rcases follows with rfl | ⟨more, rfl, none⟩
  · simp
  · rw [strstrAt_field comma nonempty, (strstrAt_none_iff nonempty more).mpr (none key known)]
    cases strstrAt key s <;> rfl

theorem drop_keyword (starts : key <+: tmp) (rest : CStr) :
    (tmp ++ rest).drop key.length = tmp.drop key.length ++ rest :=
  List.drop_append_of_le_length starts.length_le

/-- Past the front there is no way back, and a keyword in the name leads there. -/
theorem Reached.skip (reached : Reached lead file rest inName args) (known : key ∈ keywords)
    (follows : Follows rest) :
    ∃ inName', Reached lead file rest inName' (skipKeyword args key) ∧
      (inName = true → inName' = true) ∧
      (lead ≠ some key → key <:+: file → inName' = true) := by
  obtain ⟨nonempty, comma, -⟩ := keyword_facts known
  unfold skipKeyword
  cases reached with
  | @early front none =>
    rw [strstrAt_field comma nonempty]
    cases found : strstrAt key front with
    | some tmp =>
      obtain ⟨starts, behind⟩ := strstrAt_some found
      dsimp only
      split
      next =>
        refine ⟨false, ?_, id, ?_⟩
        · rw [drop_keyword starts]
          refine .early fun other member apart inside => ?_
          exact none other member apart
            (inside.trans ((List.drop_suffix _ tmp).isInfix.trans behind.isInfix))
        · intro other
          have missing := (strstrAt_none_iff nonempty front).mpr (none key known other)
          rw [found] at missing
          cases missing
      next =>
        refine ⟨false, .early none, id, ?_⟩
        intro other
        have missing := (strstrAt_none_iff nonempty front).mpr (none key known other)
        rw [found] at missing
        cases missing
    | none =>
      dsimp only
      rw [strstrAt_follows known follows]
      cases inFile : strstrAt key file with
      | none =>
        refine ⟨false, .early none, id, fun _ inside => ?_⟩
        exact absurd inside ((strstrAt_none_iff nonempty file).mp inFile)
      | some tmp =>
        obtain ⟨starts, behind⟩ := strstrAt_some inFile
        have shorter := behind.length_le
        dsimp only [Option.map_some]
        rw [if_pos (by simp only [List.length_append, List.length_cons]; omega), drop_keyword starts]
        exact ⟨true, .late ((List.drop_suffix _ tmp).trans behind), fun _ => rfl, fun _ _ => rfl⟩
  | @late back inside =>
    rw [strstrAt_follows known follows]
    cases found : strstrAt key back with
    | none => exact ⟨true, .late inside, id, fun _ _ => rfl⟩
    | some tmp =>
      obtain ⟨starts, behind⟩ := strstrAt_some found
      dsimp only [Option.map_some]
      split
      · rw [drop_keyword starts]
        exact ⟨true, .late ((List.drop_suffix _ tmp).trans (behind.trans inside)), id,
          fun _ _ => rfl⟩
      · exact ⟨true, .late inside, id, fun _ _ => rfl⟩

/-- All keywords in order. -/
theorem Reached.skipAll {keys : List CStr} (reached : Reached lead file rest inName args)
    (known : ∀ key ∈ keys, key ∈ keywords) (follows : Follows rest) :
    ∃ inName', Reached lead file rest inName' (keys.foldl skipKeyword args) ∧
      (inName = true → inName' = true) ∧
      ((∃ key ∈ keys, lead ≠ some key ∧ key <:+: file) → inName' = true) := by
  induction keys generalizing inName args with
  | nil => exact ⟨inName, reached, id, by simp⟩
  | cons key keys ih =>
    obtain ⟨next, step, kept, entered⟩ := reached.skip (known key (by simp)) follows
    obtain ⟨after, run, stays, found⟩ :=
      ih step fun key member => known key (List.mem_cons_of_mem _ member)
    refine ⟨after, run, fun inside => stays (kept inside), ?_⟩
    rintro ⟨other, member, apart, inside⟩
    rcases List.mem_cons.mp member with rfl | later
    · exact stays (entered apart inside)
    · exact found ⟨other, later, apart, inside⟩

/-! ### The list in order -/

theorem skipKeyword_none (missing : strstrAt key args = none) : skipKeyword args key = args := by
  unfold skipKeyword
  rw [missing]

theorem skipAll_none {keys : List CStr} (none : ∀ key ∈ keys, ¬ key <:+: args)
    (known : ∀ key ∈ keys, key ∈ keywords) : keys.foldl skipKeyword args = args := by
  induction keys with
  | nil => rfl
  | cons key keys ih =>
    obtain ⟨nonempty, -⟩ := keyword_facts (known key (by simp))
    have missing := (strstrAt_none_iff nonempty args).mpr (none key (by simp))
    rw [List.foldl_cons, skipKeyword_none missing]
    exact ih (fun other member => none other (List.mem_cons_of_mem _ member))
      (fun other member => known other (List.mem_cons_of_mem _ member))

/-- The search comes to rest behind the key of a parameter. -/
theorem skipAll_parameter (p : Parameter)
    (none : ∀ key ∈ keywords, key ≠ p.key → ¬ key <:+: rest) :
    keywords.foldl skipKeyword (58 :: (p.key ++ p.value ++ 44 :: rest)) =
      p.value ++ 44 :: rest := by
  obtain ⟨nonempty, comma, colon, -⟩ := keyword_facts p.known
  obtain ⟨front, back, cut⟩ := List.append_of_mem p.known
  have distinct : (front ++ p.key :: back).Nodup := by
    rw [← cut]
    decide
  have others : ∀ key ∈ keywords, key ≠ p.key → strstrAt key (p.key ++ p.value ++ 44 :: rest) = .none ∧
      ¬ key <:+: p.value ++ 44 :: rest := by
    intro key known other
    obtain ⟨nonempty, comma, -⟩ := keyword_facts known
    have inRest := (strstrAt_none_iff nonempty rest).mpr (none key known other)
    have inText := (strstrAt_none_iff nonempty (p.key ++ p.value)).mpr
      fun inside => other (p.alone key known inside)
    have inValue := (strstrAt_none_iff nonempty p.value).mpr
      fun inside => other (p.alone key known (inside.trans (List.suffix_append _ _).isInfix))
    constructor
    · rw [strstrAt_field comma nonempty, inText]
      exact inRest
    · rw [← strstrAt_none_iff nonempty, strstrAt_field comma nonempty, inValue]
      exact inRest
  have early : front.foldl skipKeyword (58 :: (p.key ++ p.value ++ 44 :: rest)) =
      58 :: (p.key ++ p.value ++ 44 :: rest) := by
    refine skipAll_none (fun key member => ?_) fun key member => by rw [cut]; simp [member]
    have known : key ∈ keywords := by
      rw [cut]
      simp [member]
    obtain ⟨filled, -, noColon, -⟩ := keyword_facts known
    have other : key ≠ p.key := by
      rintro rfl
      exact List.disjoint_of_nodup_append distinct member (by simp)
    rw [← strstrAt_none_iff filled, strstrAt_cons noColon filled]
    exact (others key known other).1
  have here : skipKeyword (58 :: (p.key ++ p.value ++ 44 :: rest)) p.key =
      p.value ++ 44 :: rest := by
    have found : strstrAt p.key (p.key ++ p.value ++ 44 :: rest) =
        some (p.key ++ p.value ++ 44 :: rest) := by
      cases shape : p.key ++ p.value ++ 44 :: rest with
      | nil => simp at shape
      | cons c s =>
        rw [strstrAt, ← shape, if_pos]
        rw [List.append_assoc]
        exact List.prefix_append _ _
    unfold skipKeyword
    rw [strstrAt_cons colon nonempty, found]
    dsimp only
    rw [if_pos (by simp), List.append_assoc, List.drop_left]
  rw [cut, List.foldl_append, List.foldl_cons, early, here]
  refine skipAll_none (fun key member => ?_) fun key member => by rw [cut]; simp [member]
  have known : key ∈ keywords := by
    rw [cut]
    simp [member]
  have other : key ≠ p.key := by
    rintro rfl
    exact (List.nodup_cons.mp (List.nodup_append.mp distinct).2.1).1 member
  exact (others key known other).2

theorem joined_chars (member : c ∈ joined fields) : c = 44 ∨ ∃ field ∈ fields, c ∈ field := by
  induction fields with
  | nil => cases member
  | cons field more ih =>
    cases more with
    | nil => exact .inr ⟨field, by simp, member⟩
    | cons next more =>
      rw [joined_cons _ _ (by simp), List.mem_append, List.mem_cons] at member
      rcases member with here | comma | later
      · exact .inr ⟨field, by simp, here⟩
      · exact .inl comma
      · rcases ih later with comma | ⟨other, held, here⟩
        · exact .inl comma
        · exact .inr ⟨other, List.mem_cons_of_mem _ held, here⟩

theorem leading_free (lead : Option Parameter) : 58 ∉ leading lead := by
  cases lead with
  | none => exact List.not_mem_nil
  | some p =>
    obtain ⟨-, -, colon, -⟩ := keyword_facts p.known
    intro member
    simp only [leading, List.mem_append, List.mem_singleton] at member
    rcases member with (inKey | inValue) | comma
    · exact colon inKey
    · exact (p.plain 58 inValue).2 rfl
    · exact absurd comma (by decide)

/-- The arguments start at the last colon. -/
theorem TftpArgs.colon (a : TftpArgs) (dev : CStr) (lead : Option Parameter) (last : Fin 6) :
    strrchr (a.path dev lead last) 58 = some (58 :: (leading lead ++ joined (a.fields last))) := by
  have free : 58 ∉ leading lead ++ joined (a.fields last) := by
    intro member
    rcases List.mem_append.mp member with early | late
    · exact leading_free lead early
    · rcases joined_chars late with comma | ⟨field, held, here⟩
      · exact absurd comma (by decide)
      · exact (a.fields_free held).2 here
  unfold strrchr TftpArgs.path
  rw [if_pos (by simp), afterLast_eq free]

/-- The keywords a search can find in the list. -/
theorem TftpArgs.no_keyword (a : TftpArgs)
    (allowed : last ≠ 0 → ∀ key ∈ keywords, key <:+: a.file → lead = some key) :
    ∀ key ∈ keywords, lead ≠ some key → ¬ key <:+: joined (a.fields last) := by
  intro key known other
  refine joined_no_keyword known fun field member inside => ?_
  rcases a.mem_fields member with rfl | quad | text
  · by_cases first : last = 0
    · subst first
      have server : a.file = a.siaddr := by simpa [TftpArgs.fields] using member
      rw [server] at inside
      exact a.server.no_keyword known inside
    · exact other (allowed first key known inside)
  · exact quad.no_keyword known inside
  · exact no_keyword_decimal text known inside

theorem previous_append (before : UInt8) (front args : CStr) :
    previous before (front ++ args) args = front.getLastD before := by
  unfold previous
  rw [List.length_append, Nat.add_sub_cancel, List.take_left]

/-- The last byte of a text without colons is none. -/
theorem getLastD_ne (filled : text ≠ []) (free : 58 ∉ text) (front : CStr) (before : UInt8) :
    (front ++ text).getLastD before ≠ 58 := by
  intro same
  rw [List.getLastD_eq_getLast?, List.getLast?_append, List.getLast?_eq_some_getLast filled] at same
  have member := List.getLast_mem filled
  rw [show text.getLast filled = 58 by simpa using same] at member
  exact free member

/-- Without parameters the list starts behind the colon. -/
theorem TftpArgs.start_bare (a : TftpArgs) (dev : CStr) (last : Fin 6)
    (none : ∀ key ∈ keywords, ¬ key <:+: joined (a.fields last)) :
    ipv4Start (a.path dev .none last) = some (58 :: joined (a.fields last)) := by
  have still : keywords.foldl skipKeyword (58 :: joined (a.fields last)) =
      58 :: joined (a.fields last) := by
    refine skipAll_none (fun key known => ?_) fun key known => known
    obtain ⟨nonempty, -, colon, -⟩ := keyword_facts known
    rw [← strstrAt_none_iff nonempty, strstrAt_cons colon nonempty, strstrAt_none_iff nonempty]
    exact none key known
  unfold ipv4Start
  rw [a.colon]
  simp [leading, still]

/-- With one it starts behind the comma of the parameter. -/
theorem TftpArgs.start_parameter (a : TftpArgs) (dev : CStr) (p : Parameter) (last : Fin 6)
    (none : ∀ key ∈ keywords, key ≠ p.key → ¬ key <:+: joined (a.fields last)) :
    ipv4Start (a.path dev (some p) last) = some (44 :: joined (a.fields last)) := by
  have shape : leading (some p) ++ joined (a.fields last) =
      p.key ++ p.value ++ 44 :: joined (a.fields last) := by
    simp [leading]
  have nonempty := (keyword_facts p.known).1
  have shorter : (p.value ++ 44 :: joined (a.fields last)).length ≠
      (58 :: (p.key ++ p.value ++ 44 :: joined (a.fields last))).length := by
    simp only [List.length_append, List.length_cons]
    omega
  have comma : strchr (p.value ++ 44 :: joined (a.fields last)) 44 =
      some (44 :: joined (a.fields last)) := by
    have passes : ∀ c ∈ p.value, (c != 44) = true := by
      intro c member
      simpa using (p.plain c member).1
    unfold strchr
    rw [if_pos (by simp), List.dropWhile_append_of_pos passes]
    simp
  unfold ipv4Start
  rw [a.colon]
  simp only [Option.bind_some, shape, skipAll_parameter p none]
  rw [if_pos shorter, comma]

/-- The list in order is what the copies are made of. -/
theorem TftpArgs.source (a : TftpArgs) (before : UInt8) (dev : CStr) (lead : Option Parameter)
    (last : Fin 6) (device : lead = none → dev.getLastD before ≠ 58)
    (allowed : last ≠ 0 → ∀ key ∈ keywords, key <:+: a.file → lead.map Parameter.key = some key) :
    ∃ args, ipv4Start (a.path dev lead last) = some args ∧
      ipv4Source before (a.path dev lead last) args = joined (a.fields last) := by
  have none := a.no_keyword allowed
  cases lead with
  | none =>
    refine ⟨_, a.start_bare dev last fun key known => none key known (by simp), ?_⟩
    unfold ipv4Source TftpArgs.path leading
    rw [List.nil_append, previous_append, if_pos (device rfl)]
    rfl
  | some p =>
    refine ⟨_, a.start_parameter dev p last fun key known other => none key known ?_, ?_⟩
    · simpa using fun same => other same.symm
    · obtain ⟨nonempty, -, colon, -⟩ := keyword_facts p.known
      have cut : a.path dev (some p) last =
          dev ++ 58 :: (p.key ++ p.value) ++ 44 :: joined (a.fields last) := by
        simp [TftpArgs.path, leading]
      have free : 58 ∉ p.key ++ p.value := by
        intro member
        rcases List.mem_append.mp member with inKey | inValue
        · exact colon inKey
        · exact (p.plain 58 inValue).2 rfl
      have end_ : (dev ++ 58 :: (p.key ++ p.value)).getLastD before ≠ 58 := by
        have last_ := getLastD_ne (by simp [nonempty]) free (dev ++ [58]) before
        rwa [List.append_assoc, List.singleton_append] at last_
      unfold ipv4Source
      rw [cut, previous_append, if_pos end_]
      rfl

theorem TftpArgs.fields_length (a : TftpArgs) (last : Fin 6) : (a.fields last).length ≤ 6 := by
  unfold TftpArgs.fields
  rw [List.length_take]
  exact Nat.min_le_right _ _

/-- Where the name is plain the list is read as it was written. -/
theorem TftpArgs.Plain.reads {a : TftpArgs} (plain : a.Plain before dev lead last)
    (r : BootFspec) :
    extractIpv4Args before (a.path dev lead last) r = (true, a.read last r) := by
  obtain ⟨args, start, source⟩ := a.source before dev lead last plain.device plain.keyword
  obtain ⟨dest, copies⟩ := (a.fields_ok last plain.named).copies 0 r
  have short := a.fields_length last
  have over_ : (a.fields last).drop 7 = [] := List.drop_eq_nil_of_le (by omega)
  have mask : (a.fields last)[6]? = none := List.getElem?_eq_none (by omega)
  unfold extractIpv4Args
  rw [start]
  simp only [source, copies, over_, mask]
  rfl

/-! ### Where it goes wrong -/

theorem extract_fields (before : UInt8) (r : BootFspec)
    (start : ipv4Start path = some args) :
    (extractIpv4Args before path r).2.siaddr =
        (scopyAddress ⟨0, ipv4Source before path args⟩).1 ∧
      (extractIpv4Args before path r).2.file =
        (scopy (scopy ⟨0, ipv4Source before path args⟩).2).1 := by
  unfold extractIpv4Args
  rw [start]
  dsimp only
  split <;> exact ⟨rfl, rfl⟩

theorem TftpArgs.read_file (a : TftpArgs) (r : BootFspec) (more : last ≠ 0) :
    (a.read last r).file = some a.file := by
  unfold TftpArgs.read TftpArgs.fields
  match last with
  | 0 => exact absurd rfl more
  | 1 | 2 | 3 | 4 | 5 => rfl

/-- What follows the name in the list. -/
theorem TftpArgs.cut (a : TftpArgs) (more : last ≠ 0) :
    ∃ rest, joined (a.fields last) = a.siaddr ++ 44 :: (a.file ++ rest) ∧
      (rest = [] ∨ rest = 44 :: joined ((a.fields last).drop 2)) ∧ Follows rest := by
  have parts : a.fields last = a.siaddr :: a.file :: (a.fields last).drop 2 := by
    unfold TftpArgs.fields
    match last with
    | 0 => exact absurd rfl more
    | 1 | 2 | 3 | 4 | 5 => rfl
  have none : ∀ key ∈ keywords, ¬ key <:+: joined ((a.fields last).drop 2) := by
    intro key known
    refine joined_no_keyword known fun field member inside => ?_
    have held : field ∈ [a.ciaddr, a.giaddr, a.bootpRetries, a.tftpRetries] := by
      unfold TftpArgs.fields at member
      rw [List.drop_take] at member
      exact List.mem_of_mem_take member
    simp only [List.mem_cons, List.not_mem_nil, or_false] at held
    rcases held with rfl | rfl | rfl | rfl
    · exact a.client.no_keyword known inside
    · exact a.gateway.no_keyword known inside
    · exact no_keyword_decimal a.bootp known inside
    · exact no_keyword_decimal a.tftp known inside
  generalize (a.fields last).drop 2 = others at parts none
  rw [parts, joined_cons _ _ (by simp)]
  cases others with
  | nil => exact ⟨[], by simp [joined], .inl rfl, .inl rfl⟩
  | cons next others =>
    refine ⟨44 :: joined (next :: others), ?_, .inr rfl, .inr ⟨_, rfl, none⟩⟩
    rw [joined_cons _ _ (by simp)]

/-- The search starts in front of the name: there is no keyword before it, but for the
leading parameter's. -/
theorem TftpArgs.early (a : TftpArgs) (lead : Option Parameter)
    (list : joined (a.fields last) = a.siaddr ++ 44 :: (a.file ++ rest)) :
    Reached (lead.map Parameter.key) a.file rest false
      (58 :: (leading lead ++ joined (a.fields last))) := by
  rw [list]
  have shape : 58 :: (leading lead ++ (a.siaddr ++ 44 :: (a.file ++ rest))) =
      (58 :: (leading lead ++ a.siaddr)) ++ 44 :: (a.file ++ rest) := by
    simp
  rw [shape]
  refine .early fun key known apart => ?_
  obtain ⟨nonempty, comma, colon, -⟩ := keyword_facts known
  have server := (strstrAt_none_iff nonempty a.siaddr).mpr (a.server.no_keyword known)
  rw [← strstrAt_none_iff nonempty, strstrAt_cons colon nonempty]
  cases lead with
  | none => exact server
  | some p =>
    have text : strstrAt key (p.key ++ p.value) = none := by
      rw [strstrAt_none_iff nonempty]
      intro here
      exact apart (congrArg some (p.alone key known here).symm)
    have parts : leading (some p) ++ a.siaddr = p.key ++ p.value ++ 44 :: a.siaddr := by
      simp [leading]
    rw [parts, strstrAt_field comma nonempty, text]
    exact server

/-- Where the search ends in the name, the list starts behind it. -/
theorem TftpArgs.late_start (a : TftpArgs) (dev : CStr) (lead : Option Parameter)
    (list : joined (a.fields last) = a.siaddr ++ 44 :: (a.file ++ rest))
    (search : keywords.foldl skipKeyword (58 :: (leading lead ++ joined (a.fields last))) =
      back ++ rest)
    (behind : back <:+ a.file) :
    ipv4Start (a.path dev lead last) = strchr rest 44 := by
  have shorter : (back ++ rest).length ≠
      (58 :: (leading lead ++ joined (a.fields last))).length := by
    have part := behind.length_le
    rw [list]
    simp only [List.length_append, List.length_cons]
    omega
  have comma : ∀ c ∈ back, (c != 44) = true := by
    intro c member
    rw [bne_iff_ne]
    rintro rfl
    exact a.name.1 (behind.subset member)
  have skip : strchr (back ++ rest) 44 = strchr rest 44 := by
    have absent : 44 ∉ back := fun member => absurd (comma 44 member) (by decide)
    unfold strchr
    simp only [List.mem_append, absent, false_or, List.dropWhile_append_of_pos comma]
  unfold ipv4Start
  rw [a.colon]
  simp only [Option.bind_some, search, if_pos shorter]
  exact skip

/-- The list behind the name has an address in the place of the name. -/
theorem TftpArgs.file_lost (a : TftpArgs) (before : UInt8) (dev : CStr)
    (lead : Option Parameter) (known : key ∈ keywords) (inside : key <:+: a.file)
    (r : BootFspec)
    (list : joined (a.fields last) =
      a.siaddr ++ 44 :: (a.file ++ 44 :: joined ((a.fields last).drop 2)))
    (start : ipv4Start (a.path dev lead last) = some (44 :: joined ((a.fields last).drop 2))) :
    (extractIpv4Args before (a.path dev lead last) r).2.file ≠ some a.file := by
  obtain ⟨nonempty, -⟩ := keyword_facts known
  have filled : a.file ≠ [] := by
    intro empty
    rw [empty] at inside
    exact nonempty (List.infix_nil.mp inside)
  have source : ipv4Source before (a.path dev lead last)
      (44 :: joined ((a.fields last).drop 2)) = joined ((a.fields last).drop 2) := by
    have path : a.path dev lead last =
        (dev ++ 58 :: (leading lead ++ (a.siaddr ++ [44]))) ++ a.file ++
          44 :: joined ((a.fields last).drop 2) := by
      unfold TftpArgs.path
      rw [list]
      simp
    unfold ipv4Source
    rw [path, previous_append, if_pos (getLastD_ne filled a.name.2 _ before)]
    rfl
  have ok := a.fields_ok last fun _ => filled
  obtain ⟨d₁, second⟩ := ok.copy (i := 2) (by decide) 0
  obtain ⟨d₂, third⟩ := ok.copy (i := 3) (by decide) d₁
  rw [(extract_fields before r start).2, source, second, third]
  intro same
  unfold TftpArgs.fields at same
  rw [List.getElem?_take] at same
  split at same
  · have gateway : a.giaddr = a.file := by simpa using same
    rw [← gateway] at inside
    exact a.gateway.no_keyword known inside
  · cases same

/-- A keyword in the name is taken for a parameter, and the name is lost. -/
theorem TftpArgs.keyword_lost (a : TftpArgs) (before : UInt8) (dev : CStr)
    (lead : Option Parameter) (more : last ≠ 0) (known : key ∈ keywords) (inside : key <:+: a.file)
    (other : lead.map Parameter.key ≠ some key) (r : BootFspec) (fresh : r.file = none) :
    extractIpv4Args before (a.path dev lead last) r ≠ (true, a.read last r) := by
  obtain ⟨rest, list, kinds, follows⟩ := a.cut more
  obtain ⟨inName, late, -, entered⟩ :=
    (a.early lead list).skipAll (fun key known => known) follows
  rw [entered ⟨key, known, other, inside⟩] at late
  generalize search : keywords.foldl skipKeyword (58 :: (leading lead ++ joined (a.fields last))) =
    args at late
  have lost : (extractIpv4Args before (a.path dev lead last) r).2.file ≠ some a.file := by
    cases late with
    | @late back behind =>
      have start := a.late_start dev lead list search behind
      rcases kinds with rfl | rfl
      · unfold extractIpv4Args
        rw [start, show strchr [] 44 = none from rfl]
        dsimp only
        rw [fresh]
        simp
      · have found : strchr (44 :: joined ((a.fields last).drop 2)) 44 =
            some (44 :: joined ((a.fields last).drop 2)) := by simp [strchr]
        exact a.file_lost before dev lead known inside r list (start.trans found)
  intro same
  rw [same] at lost
  exact lost (a.read_file r more)

/-- A colon in front of an address makes it none. -/
theorem colon_invalid (s : CStr) : isValidIpv4Str (some (58 :: s)) = none := by
  have loop : octetLoop 4 0 (58 :: s) = none := by
    unfold octetLoop
    rfl
  unfold isValidIpv4Str
  simp only [loop]

theorem DottedQuad.head (quad : DottedQuad s) : ∃ c more, s = c :: more ∧ isdigit c = true := by
  obtain ⟨a, b, c, d, first, -, -, -, rfl, -⟩ := quad
  obtain ⟨x, more, rfl⟩ := List.exists_cons_of_ne_nil first.text.nonempty
  exact ⟨x, _, rfl, first.text.digits x (by simp)⟩

theorem TftpArgs.head (a : TftpArgs) (last : Fin 6) :
    ∃ rest, joined (a.fields last) = a.siaddr ++ rest ∧ (rest = [] ∨ ∃ more, rest = 44 :: more) := by
  by_cases first : last = 0
  · subst first
    exact ⟨[], by simp [TftpArgs.fields, joined], .inl rfl⟩
  · obtain ⟨rest, list, -⟩ := a.cut first
    exact ⟨_, list, .inr ⟨_, rfl⟩⟩

/-- Two colons in front of the list are one too many. -/
theorem TftpArgs.device_lost (a : TftpArgs) (last : Fin 6)
    (none_ : ∀ key ∈ keywords, ¬ key <:+: joined (a.fields last))
    (twice : dev.getLastD before = 58) (r : BootFspec) :
    extractIpv4Args before (a.path dev none last) r ≠ (true, a.read last r) := by
  have start := a.start_bare dev last none_
  have source : ipv4Source before (a.path dev none last) (58 :: joined (a.fields last)) =
      58 :: joined (a.fields last) := by
    unfold ipv4Source TftpArgs.path leading
    rw [List.nil_append, previous_append, if_neg (not_not.mpr twice)]
  obtain ⟨rest, list, kinds⟩ := a.head last
  obtain ⟨c, more, server, digit⟩ := a.server.head
  have comma : ∀ x ∈ 58 :: a.siaddr, (x != 44) = true := by
    intro x member
    rw [bne_iff_ne]
    rintro rfl
    rcases List.mem_cons.mp member with colon | inside
    · exact absurd colon (by decide)
    · exact a.server.not_mem (by decide) (by decide) inside
  have field : (scopy ⟨0, 58 :: joined (a.fields last)⟩).1 = some (58 :: a.siaddr) := by
    rw [list, ← List.cons_append]
    rcases kinds with rfl | ⟨next, rfl⟩
    · have taken := List.takeWhile_eq_self_iff.mpr comma
      unfold scopy
      rw [List.append_nil, if_neg (by simp), taken]
    · rw [scopy_field 0 fun member => absurd (comma 44 member) (by decide)]
  have missing : (extractIpv4Args before (a.path dev none last) r).2.siaddr = none := by
    rw [(extract_fields before r start).1, source]
    unfold scopyAddress
    dsimp only
    rw [field, server]
    exact colon_invalid _
  have wanted : (a.read last r).siaddr = some a.siaddr := by
    unfold TftpArgs.read TftpArgs.fields
    simp
  intro same
  rw [same, wanted] at missing
  cases missing

/-- An empty name at the end of the list is not read. -/
theorem TftpArgs.name_lost (a : TftpArgs) (before : UInt8) (dev : CStr)
    (lead : Option Parameter) (start : ipv4Start (a.path dev lead 1) = some args)
    (source : ipv4Source before (a.path dev lead 1) args = joined (a.fields 1))
    (empty : a.file = []) (r : BootFspec) :
    extractIpv4Args before (a.path dev lead 1) r ≠ (true, a.read 1 r) := by
  have missing : (extractIpv4Args before (a.path dev lead 1) r).2.file = none := by
    have list : joined (a.fields 1) = a.siaddr ++ 44 :: [] := by
      simp [TftpArgs.fields, joined, empty]
    rw [(extract_fields before r start).2, source, list,
      scopy_field 0 (a.server.not_mem (by decide) (by decide))]
    rfl
  intro same
  rw [same, a.read_file r (by decide)] at missing
  cases missing

/-- The arguments of a TFTP path are read as they were written, every prefix of the list included,
exactly when the file in it has a name, and no keyword is found there but that in front of it. -/
theorem extractIpv4Args_iff (a : TftpArgs) (before : UInt8) (dev : CStr)
    (lead : Option Parameter) (last : Fin 6) (r : BootFspec) (fresh : r.file = none) :
    extractIpv4Args before (a.path dev lead last) r = (true, a.read last r) ↔
      a.Plain before dev lead last := by
  constructor
  · intro same
    have keyword : last ≠ 0 → ∀ key ∈ keywords, key <:+: a.file →
        lead.map Parameter.key = some key := by
      intro more key known inside
      by_contra other
      exact a.keyword_lost before dev lead more known inside other r fresh same
    have device : lead = none → dev.getLastD before ≠ 58 := by
      rintro rfl twice
      exact a.device_lost last (fun key known => a.no_keyword keyword key known (by simp))
        twice r same
    refine ⟨device, keyword, ?_⟩
    rintro rfl empty
    obtain ⟨args, start, source⟩ := a.source before dev lead 1 device keyword
    exact a.name_lost before dev lead start source empty r same
  · exact fun plain => plain.reads r

/-- The example of the comment in front of `parse_device_path`. -/
def bootme : TftpArgs where
  siaddr := cstr "10.0.0.11"
  file := cstr "bootme"
  ciaddr := cstr "10.0.0.12"
  giaddr := cstr "10.0.0.1"
  bootpRetries := cstr "5"
  tftpRetries := cstr "5"
  server := .ofWord 0x0a00000b (by decide +kernel) (by unfold Reserved; decide +kernel)
  name := by decide +kernel
  client := .ofWord 0x0a00000c (by decide +kernel) (by unfold Reserved; decide +kernel)
  gateway := .ofWord 0x0a000001 (by decide +kernel) (by unfold Reserved; decide +kernel)
  bootp := ⟨by decide +kernel, by decide +kernel⟩
  tftp := ⟨by decide +kernel, by decide +kernel⟩

def bootpFirst : Parameter where
  key := cstr "bootp"
  value := []
  known := by decide +kernel
  plain := by simp
  alone := by decide +kernel

/-- A list with a leading parameter and the fields in front of the retries. -/
theorem bootme_read :
    extractIpv4Args 0 (bootme.path (cstr "enet") (some bootpFirst) 5) BootFspec.zero =
      (true, bootme.read 5 BootFspec.zero) :=
  (extractIpv4Args_iff bootme 0 (cstr "enet") (some bootpFirst) 5 BootFspec.zero rfl).mpr
    ⟨by simp, by decide +kernel, by decide⟩

/-- The same with a name that starts with `bootp`. -/
def bootpImage : TftpArgs := { bootme with file := cstr "bootp.img", name := by decide }

/-- The file `bootp.img` is taken for the parameter `bootp`. -/
theorem bootpImage_lost :
    extractIpv4Args 0 (bootpImage.path (cstr "enet") none 5) BootFspec.zero ≠
      (true, bootpImage.read 5 BootFspec.zero) := by
  decide +kernel

end Yaboot.Netboot
