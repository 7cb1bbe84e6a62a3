import Yaboot.Netboot.OpenPath
import Yaboot.Netboot.PathParserProofs
import Yaboot.Netboot.TftpProofs

/-! When the path that is opened for a network file reads back as it was written. -/
namespace Yaboot.Netboot
open CString Strtol Fs Pointers

/-! ### What stands in a list -/

/-- A text that can stand between commas, behind a colon. -/
def Item (s : CStr) : Prop := 44 ∉ s ∧ 58 ∉ s

/-- The two addresses `is_valid_ipv4_str` refuses. A boot packet may hold them all
the same. -/
def ReservedText (s : CStr) : Prop := s = ipv4ToStr 0 ∨ s = ipv4ToStr 0xffffffff

/-- An address the parser leaves in a request: one that is accepted, or one of a
boot packet. -/
structure Addressed (s : CStr) : Prop where
  filled : s ≠ []
  item : Item s
  known : Settled s ∨ ReservedText s

/-- The fields that are set can stand in a list of arguments. -/
structure Listed (r : BootFspec) : Prop where
  siaddr : ∀ s ∈ r.siaddr, Addressed s
  ciaddr : ∀ s ∈ r.ciaddr, Addressed s
  giaddr : ∀ s ∈ r.giaddr, Addressed s
  bootpRetries : ∀ s ∈ r.bootpRetries, Item s
  tftpRetries : ∀ s ∈ r.tftpRetries, Item s
  subnetmask : ∀ s ∈ r.subnetmask, Addressed s
  addlParams : ∀ s ∈ r.addlParams, s ≠ [] ∧ 58 ∉ s

theorem ReservedText.refused (reserved : ReservedText s) : ¬ Settled s := by
  unfold Settled
  rcases reserved with rfl | rfl
  · decide +kernel
  · decide +kernel

/-- Of the addresses of a request just the reserved ones are refused. -/
theorem Addressed.settled_iff (addressed : Addressed s) : Settled s ↔ ¬ ReservedText s :=
  ⟨fun settled reserved => reserved.refused settled,
    fun free => addressed.known.resolve_right free⟩

theorem ipv4ToStr_item (ip : UInt32) : ipv4ToStr ip ≠ [] ∧ Item (ipv4ToStr ip) := by
  have octet {n : Nat} (small : n < 256) (c : UInt8) (other : isdigit c = false) :
      c ∉ unsigned n := by
    obtain ⟨decimal, -⟩ := unsigned_octet small
    exact decimal.text.not_mem other
  have bound := ip.toNat_lt
  have free (c : UInt8) (other : isdigit c = false) (dot : c ≠ 46) : c ∉ ipv4ToStr ip := by
    unfold ipv4ToStr
    simp only [List.mem_append, List.mem_cons, not_or]
    exact ⟨⟨⟨octet (by omega) c other, dot, octet (by omega) c other⟩, dot,
      octet (by omega) c other⟩, dot, octet (by omega) c other⟩
  exact ⟨by simp [ipv4ToStr], free 44 (by decide) (by decide), free 58 (by decide) (by decide)⟩

theorem ipv4ToStr_addressed (ip : UInt32) : Addressed (ipv4ToStr ip) where
  filled := (ipv4ToStr_item ip).1
  item := (ipv4ToStr_item ip).2
  known := by
    by_cases reserved : Reserved ip.toNat
    · refine .inr ?_
      rcases reserved with zero | ones
      · exact .inl (congrArg ipv4ToStr (UInt32.toNat_inj.mp zero))
      · exact .inr (congrArg ipv4ToStr (UInt32.toNat_inj.mp ones))
    · exact .inl (ipv4ToStr_quad ip reserved).valid

theorem fill_listed {old : Option CStr} {P : CStr → Prop} (written : ∀ ip, P (ipv4ToStr ip))
    (set : ∀ s ∈ old, P s) (ip : UInt32) : ∀ s ∈ fill old ip, P s := by
  unfold fill
  split
  · intro s same
    cases same
    exact written ip
  · exact set

theorem storeOption_listed (listed : Listed r) (tag : UInt8) (value : UInt32) :
    Listed (storeOption tag value r) := by
  unfold storeOption
  split
  · exact { listed with subnetmask := fill_listed ipv4ToStr_addressed listed.subnetmask value }
  · split
    · exact { listed with giaddr := fill_listed ipv4ToStr_addressed listed.giaddr value }
    · exact listed

/-- What every option leaves as it is the whole loop does. -/
theorem vendorLoop_keeps {P : BootFspec → Prop}
    (step : ∀ tag value r, P r → P (storeOption tag value r)) {options : List UInt8}
    (start : P r) (read : vendorLoop options r = some r') : P r' := by
  induction options, r using vendorLoop.induct with
  | case1 r =>
    rw [vendorLoop.eq_def] at read
    cases read
  | case2 rest r =>
    rw [vendorLoop_end] at read
    cases read
    exact start
  | case3 rest r other ih =>
    rw [vendorLoop_pad] at read
    exact ih start read
  | case4 tag r notEnd notPad =>
    rw [vendorLoop.eq_def] at read
    simp only [if_neg notEnd, if_neg notPad] at read
    cases read
  | case5 tag r notEnd notPad len data short =>
    rw [vendorLoop.eq_def] at read
    simp only [if_neg notEnd, if_neg notPad, if_pos short] at read
    cases read
  | case6 tag r notEnd notPad len data whole ih =>
    rw [vendorLoop.eq_def] at read
    simp only [if_neg notEnd, if_neg notPad, if_neg whole] at read
    exact ih (step _ _ _ start) read

theorem extractVendorOptions_keeps {P : BootFspec → Prop}
    (step : ∀ tag value r, P r → P (storeOption tag value r)) (start : P r)
    (read : extractVendorOptions options r = some r') : P r' := by
  unfold extractVendorOptions at read
  split at read
  · cases read
  · split at read
    · cases read
      exact start
    · exact vendorLoop_keeps step start read

/-- A reply of the server leaves fields that can stand in a list of arguments. -/
theorem extractNetinfoArgs_listed (listed : Listed r)
    (read : extractNetinfoArgs packet r = some r') : Listed r' := by
  unfold extractNetinfoArgs at read
  cases packet with
  | none =>
    cases read
    exact listed
  | some p =>
    obtain ⟨stored, options, last⟩ := Option.map_eq_some_iff.mp read
    have filled : Listed stored := by
      refine extractVendorOptions_keeps (fun tag value r before => ?_) ?_ options
      · exact storeOption_listed before tag value
      · exact { listed with
          siaddr := fill_listed ipv4ToStr_addressed listed.siaddr _
          ciaddr := fill_listed ipv4ToStr_addressed listed.ciaddr _
          giaddr := fill_listed ipv4ToStr_addressed listed.giaddr _ }
    subst last
    split
    · refine { filled with giaddr := ?_ }
      intro s same
      cases same
      exact ipv4ToStr_addressed p.siaddr
    · exact filled

/-- A reply does not decide between IPv4 and IPv6. -/
theorem extractNetinfoArgs_isIpv6 (read : extractNetinfoArgs packet r = some r') :
    r'.isIpv6 = r.isIpv6 := by
  unfold extractNetinfoArgs at read
  cases packet with
  | none =>
    cases read
    rfl
  | some p =>
    obtain ⟨stored, options, last⟩ := Option.map_eq_some_iff.mp read
    have same : stored.isIpv6 = r.isIpv6 := by
      refine extractVendorOptions_keeps (P := fun s => s.isIpv6 = r.isIpv6)
        (fun tag value s before => ?_) ?_ options
      · unfold storeOption
        split
        · exact before
        · split
          · exact before
          · exact before
      · rfl
    subst last
    split
    · exact same
    · exact same

/-! ### The list of a network path -/

/-- A copy is a field, and what is left is what stood behind it. -/
theorem scopy_item (copied : scopy c = (some field, c')) :
    44 ∉ field ∧ (c.source = field ∧ c'.source = [] ∨ c.source = field ++ 44 :: c'.source) := by
  unfold scopy at copied
  split at copied
  · cases copied
  next filled =>
    cases copied
    have cut := List.takeWhile_append_dropWhile (p := (· != 44)) (l := c.source)
    constructor
    · intro member
      have passed := List.mem_takeWhile_imp member
      simp at passed
    · cases behind : c.source.dropWhile (· != 44) with
      | nil =>
        rw [behind, List.append_nil] at cut
        exact .inl ⟨cut.symm, rfl⟩
      | cons d rest =>
        have stop := List.head?_dropWhile_not (· != 44) c.source
        rw [behind] at stop
        have comma : d = 44 := by simpa using stop
        rw [behind, comma] at cut
        exact .inr cut.symm

/-- An address that is accepted is returned as it is; it is not empty and does not begin with a
colon. -/
theorem isValid_same (accepted : isValidIpv4Str (some s) = some s') :
    s' = s ∧ s ≠ [] ∧ s.head? ≠ some 58 := by
  refine ⟨?_, ?_, ?_⟩
  · unfold isValidIpv4Str at accepted
    dsimp only at accepted
    split at accepted
    · cases accepted
    · split at accepted
      · cases accepted
      · exact (Option.some.inj accepted).symm
  · rintro rfl
    have none : isValidIpv4Str (some []) = none := by decide
    rw [none] at accepted
    cases accepted
  · intro colon
    obtain ⟨t, rfl⟩ : ∃ t, s = 58 :: t := by
      cases s with
      | nil => cases colon
      | cons c t => exact ⟨t, by rw [Option.some.inj colon]⟩
    rw [colon_invalid] at accepted
    cases accepted

/-- An address that is kept is a field, and accepted. -/
theorem scopyAddress_item (copied : scopyAddress c = (some s, c')) :
    scopy c = (some s, c') ∧ s ≠ [] ∧ s.head? ≠ some 58 ∧ Settled s := by
  unfold scopyAddress at copied
  cases raw : scopy c with
  | mk field c'' =>
    rw [raw] at copied
    cases field with
    | none => simp [isValidIpv4Str] at copied
    | some field =>
      obtain ⟨accepted, rfl⟩ := Prod.mk.inj copied
      obtain ⟨rfl, filled, head⟩ := isValid_same accepted
      exact ⟨rfl, filled, head, accepted⟩

/-- What is left of a text without colons has none, and neither have its fields. -/
theorem scopy_plain (copied : scopy c = (field, c')) (free : 58 ∉ c.source) :
    58 ∉ c'.source ∧ ∀ s ∈ field, Item s := by
  cases field with
  | none =>
    have kept : c' = c := by
      unfold scopy at copied
      split at copied
      · exact (Prod.mk.inj copied).2.symm
      · cases copied
    rw [kept]
    exact ⟨free, by simp⟩
  | some field =>
    obtain ⟨comma, shape⟩ := scopy_item copied
    rcases shape with ⟨whole, rest⟩ | split
    · rw [rest]
      refine ⟨List.not_mem_nil, ?_⟩
      intro s same
      cases same
      exact ⟨comma, whole ▸ free⟩
    · rw [split, List.mem_append, List.mem_cons, not_or, not_or] at free
      refine ⟨free.2.2, ?_⟩
      intro s same
      cases same
      exact ⟨comma, free.1⟩

theorem scopyAddress_raw (copied : scopyAddress c = (field, c')) :
    ∃ raw, scopy c = (raw, c') := by
  unfold scopyAddress at copied
  cases same : scopy c with
  | mk raw c'' =>
    rw [same] at copied
    exact ⟨raw, by rw [(Prod.mk.inj copied).2]⟩

theorem scopyAddress_plain (copied : scopyAddress c = (field, c')) (free : 58 ∉ c.source) :
    58 ∉ c'.source ∧ ∀ s ∈ field, Addressed s := by
  obtain ⟨raw, same⟩ := scopyAddress_raw copied
  obtain ⟨rest, -⟩ := scopy_plain same free
  refine ⟨rest, ?_⟩
  intro s same
  cases same
  obtain ⟨item, filled, -, settled⟩ := scopyAddress_item copied
  exact ⟨filled, (scopy_plain item free).2 s rfl, .inl settled⟩

/-- A field of a text that starts with its only colon starts with it. -/
theorem scopy_first (copied : scopy c = (some field, c')) (source : c.source = 58 :: t)
    (free : 58 ∉ t) : 58 ∉ c'.source ∧ field.head? = some 58 := by
  obtain ⟨comma, shape⟩ := scopy_item copied
  rw [source] at shape
  rcases shape with ⟨whole, rest⟩ | split
  · rw [rest, ← whole]
    exact ⟨List.not_mem_nil, rfl⟩
  · cases field with
    | nil =>
      have same : (58 : UInt8) = 44 := (List.cons.inj split).1
      exact absurd same (by decide)
    | cons d field =>
      rw [List.cons_append] at split
      obtain ⟨rfl, rfl⟩ := List.cons.inj split
      rw [List.mem_append, List.mem_cons, not_or, not_or] at free
      exact ⟨free.2.2, rfl⟩

/-- Such a field is no address. -/
theorem scopyAddress_first (copied : scopyAddress c = (field, c')) (source : c.source = 58 :: t)
    (free : 58 ∉ t) : 58 ∉ c'.source ∧ ∀ s ∈ field, Addressed s := by
  obtain ⟨raw, same⟩ := scopyAddress_raw copied
  cases raw with
  | none =>
    unfold scopy at same
    rw [if_neg (by simp [source])] at same
    cases same
  | some raw =>
    refine ⟨(scopy_first same source free).1, ?_⟩
    intro s member
    cases member
    obtain ⟨item, -, head, -⟩ := scopyAddress_item copied
    exact absurd (scopy_first item source free).2 head

theorem skipKeyword_suffix (args key : CStr) : skipKeyword args key <:+ args := by
  unfold skipKeyword
  cases found : strstrAt key args with
  | none => exact List.suffix_refl args
  | some tmp =>
    dsimp only
    split
    · exact (List.drop_suffix _ _).trans (strstrAt_some found).2
    · exact List.suffix_refl args

theorem skipAll_suffix (keys : List CStr) (args : CStr) : keys.foldl skipKeyword args <:+ args := by
  induction keys generalizing args with
  | nil => exact List.suffix_refl args
  | cons key keys ih => exact (ih _).trans (skipKeyword_suffix args key)

theorem strchr_suffix (found : strchr s c = some t) : t <:+ s := by
  unfold strchr at found
  split at found
  · cases found
    exact List.dropWhile_suffix _
  · cases found

/-- The arguments lie behind the last colon, or start with it. -/
theorem ipv4Start_suffix (start : ipv4Start path = some args) :
    ∃ t, 58 ∉ t ∧ args <:+ 58 :: t := by
  obtain ⟨first, colon, rest⟩ := Option.bind_eq_some_iff.mp start
  unfold strrchr at colon
  split at colon
  · cases colon
    refine ⟨afterLast path 58, afterLast_free path 58, ?_⟩
    dsimp only at rest
    split at rest
    · exact (strchr_suffix rest).trans (skipAll_suffix _ _)
    · cases rest
      exact skipAll_suffix _ _
  · cases colon

/-- What the arguments are taken from has no colon, or starts with its only one. -/
theorem ipv4Source_colon (before : UInt8) (start : ipv4Start path = some args) :
    58 ∉ ipv4Source before path args ∨
      ∃ t, ipv4Source before path args = 58 :: t ∧ 58 ∉ t := by
  obtain ⟨t, free, args_suffix⟩ := ipv4Start_suffix start
  have inside : ipv4Source before path args <:+ 58 :: t := by
    unfold ipv4Source
    split
    · exact (List.drop_suffix _ _).trans args_suffix
    · exact args_suffix
  rcases List.suffix_cons_iff.mp inside with whole | behind
  · exact .inr ⟨t, whole, free⟩
  · exact .inl fun here => free (behind.mem here)

/-- So do the copies of IPv6 arguments, and no colon is left to be read. -/
theorem copies_listed (c : Copying)
    (colon : 58 ∉ c.source ∨ ∃ t, c.source = 58 :: t ∧ 58 ∉ t)
    (listed : Listed r) :
    Listed (ipv4Copies c r).1 ∧ 58 ∉ (ipv4Copies c r).2.source := by
  unfold ipv4Copies
  cases first : scopyAddress c with
  | mk siaddr c₁ =>
  obtain ⟨free₁, server⟩ : 58 ∉ c₁.source ∧ ∀ s ∈ siaddr, Addressed s := by
    rcases colon with free | ⟨t, source, free⟩
    · exact scopyAddress_plain first free
    · exact scopyAddress_first first source free
  cases second : scopy c₁ with
  | mk file c₂ =>
  obtain ⟨free₂, -⟩ := scopy_plain second free₁
  cases third : scopyAddress c₂ with
  | mk ciaddr c₃ =>
  obtain ⟨free₃, client⟩ := scopyAddress_plain third free₂
  cases fourth : scopyAddress c₃ with
  | mk giaddr c₄ =>
  obtain ⟨free₄, gateway⟩ := scopyAddress_plain fourth free₃
  cases fifth : scopy c₄ with
  | mk bootp c₅ =>
  obtain ⟨free₅, bootpItem⟩ := scopy_plain fifth free₄
  cases sixth : scopy c₅ with
  | mk tftp c₆ =>
  obtain ⟨free₆, tftpItem⟩ := scopy_plain sixth free₅
  cases seventh : scopyAddress c₆ with
  | mk mask c₇ =>
  obtain ⟨free₇, maskItem⟩ := scopyAddress_plain seventh free₆
  simp only [second, third, fourth, fifth, sixth, seventh]
  exact ⟨⟨server, client, gateway, bootpItem, tftpItem, maskItem, listed.addlParams⟩, free₇⟩

theorem extractIpv4Args_listed (before : UInt8) (path : CStr) (listed : Listed r) :
    Listed (extractIpv4Args before path r).2 := by
  unfold extractIpv4Args
  cases start : ipv4Start path with
  | none => exact listed
  | some args =>
    obtain ⟨copied, free⟩ := copies_listed ⟨0, ipv4Source before path args⟩
      (ipv4Source_colon before start) listed
    dsimp only
    split
    · exact copied
    next more =>
      refine { copied with addlParams := ?_ }
      intro s same
      cases same
      exact ⟨more, free⟩

/-! ### What the parser produces -/

/-- Requests the parser has filled in, one after the other. Callers change device,
partition and file between calls, which every call sets anew. -/
inductive Produced : BootFspec → Prop where
  | zero : Produced .zero
  | parsed (m : Machine) (imagepath defdevice : Option CStr) (defpart : Int) (deffile : CStr)
      (memory : Memory) (earlier : Produced r)
      (returned : (parseDevicePath m imagepath defdevice defpart deffile r memory).value =
        some (true, r')) : Produced r'

/-- A request for IPv4 can be written as a list. -/
def Kept (r : BootFspec) : Prop := r.isIpv6 = true ∨ Listed r

theorem Kept.named (kept : Kept r) (dev : Option CStr) (part : Int) (file : Option CStr) :
    Kept { r with dev, part, file } := by
  rcases kept with v6 | ⟨siaddr, ciaddr, giaddr, bootp, tftp, mask, addl⟩
  · exact .inl v6
  · exact .inr ⟨siaddr, ciaddr, giaddr, bootp, tftp, mask, addl⟩

theorem netinfo_kept (kept : Kept r) (packet : Option BootpPacket) :
    Kept ((extractNetinfoArgs packet r).getD r) := by
  cases read : extractNetinfoArgs packet r with
  | none => exact kept
  | some r' =>
    rcases kept with v6 | listed
    · exact .inl ((extractNetinfoArgs_isIpv6 read).trans v6)
    · exact .inr (extractNetinfoArgs_listed listed read)

theorem extractIpv4Args_isIpv6 (before : UInt8) (path : CStr) (r : BootFspec) :
    (extractIpv4Args before path r).2.isIpv6 = r.isIpv6 := by
  unfold extractIpv4Args
  cases ipv4Start path with
  | none => rfl
  | some args =>
    dsimp only
    split
    · rfl
    · rfl

theorem netbootArgs_kept (kept : Kept r) (m : Machine) (path : CStr) :
    Kept (m.netbootArgs path r).2 := by
  refine netinfo_kept ?_ m.netinfo
  split
  · exact .inl rfl
  · rcases kept with v6 | listed
    · exact .inl ((extractIpv4Args_isIpv6 m.before path r).trans v6)
    · exact .inr (extractIpv4Args_listed m.before path listed)

theorem nameResult_kept (kept : Kept r) (ipath : CStr) (defdev : Option CStr) (defpart : Int)
    (deffile : CStr) : Kept (nameResult ipath defdev defpart deffile r).2 := by
  unfold nameResult
  split
  · exact kept.named _ _ _
  · split
    · exact kept.named _ _ _
    · exact kept

theorem netResult_kept {found : Bool × BootFspec} (kept : Kept found.2) (ipath : CStr)
    (defdev : Option CStr) (defpart : Int) (deffile : CStr) :
    Kept (netResult found ipath defdev defpart deffile).2 := by
  unfold netResult
  split
  · exact kept
  · split
    · exact kept.named _ _ _
    · exact kept.named _ _ _

theorem parseLocal_kept (kept : Kept r) (fw : Firmware) (ipath : CStr) (defdev : Option CStr)
    (defpart : Int) (deffile : CStr) :
    Kept (parseIpath fw (.ok .block) ipath defdev defpart deffile r).2 := by
  unfold parseIpath
  by_cases colon : 58 ∈ (splitFile ipath).1
  · simp only [if_pos colon]
    exact kept.named _ _ _
  · simp only [if_neg colon]
    exact nameResult_kept (kept.named r.dev r.part (splitFile ipath).2) _ _ _ _

theorem parseIpath_kept (kept : Kept r) (m : Machine) (memory : Memory)
    (kind : Except FileErr DeviceKind) (ipath : CStr) (defdev : Option CStr) (defpart : Int)
    (deffile : CStr) :
    Kept (parseIpath (m.firmware memory) kind ipath defdev defpart deffile r).2 := by
  cases kind with
  | error e => exact parseLocal_kept kept (m.firmware memory) _ _ _ _
  | ok kind =>
    cases kind with
    | block => exact parseLocal_kept kept _ _ _ _ _
    | iscsi => exact nameResult_kept kept _ _ _ _
    | net =>
      refine netResult_kept ?_ ipath defdev defpart deffile
      split
      · exact netbootArgs_kept kept m ipath
      · exact (netinfo_kept kept m.netinfo).named _ _ _

/-- A request for IPv4 that was produced can be written as a list. -/
theorem Produced.kept (produced : Produced r) : Kept r := by
  induction produced with
  | zero =>
    have unset : ∀ s : CStr, s ∉ (none : Option CStr) := by simp
    exact .inr ⟨fun s given => absurd given (unset s), fun s given => absurd given (unset s),
      fun s given => absurd given (unset s), fun s given => absurd given (unset s),
      fun s given => absurd given (unset s), fun s given => absurd given (unset s),
      fun s given => absurd given (unset s)⟩
  | @parsed r r' m imagepath defdevice defpart deffile memory earlier returned kept =>
    cases imagepath with
    | none => cases returned
    | some path =>
      have same : r' = (Fs.parseDevicePath (m.firmware memory) path defdevice defpart deffile r).2 :=
        congrArg Prod.snd (parse_value returned)
      rw [same]
      unfold Fs.parseDevicePath
      split
      · exact kept.named _ _ _
      · exact parseIpath_kept (kept.named _ _ _) m memory _ _ _ _ _

/-! ### Where the list is found again -/

/-- A search for keywords finds none and stays, or loses two bytes at least. -/
theorem skipAll_cases {keys : List CStr} (known : ∀ key ∈ keys, key ∈ keywords) (t : CStr) :
    keys.foldl skipKeyword (58 :: t) = 58 :: t ∧ (∀ key ∈ keys, ¬ key <:+: 58 :: t) ∨
      (keys.foldl skipKeyword (58 :: t)).length + 2 ≤ (58 :: t).length := by
  induction keys with
  | nil => exact .inl ⟨rfl, by simp⟩
  | cons key keys ih =>
    obtain ⟨nonempty, -, colon, -⟩ := keyword_facts (known key (by simp))
    rw [List.foldl_cons]
    cases found : strstrAt key (58 :: t) with
    | none =>
      rw [skipKeyword_none found]
      rcases ih fun other member => known other (List.mem_cons_of_mem _ member) with
        ⟨still, none⟩ | shorter
      · refine .inl ⟨still, ?_⟩
        intro other member
        rcases List.mem_cons.mp member with rfl | later
        · exact (strstrAt_none_iff nonempty _).mp found
        · exact none other later
      · exact .inr shorter
    | some tmp =>
      obtain ⟨starts, suffix⟩ := strstrAt_some found
      have inside : tmp <:+ t := by
        rcases List.suffix_cons_iff.mp suffix with rfl | behind
        · obtain ⟨d, key', rfl⟩ := List.exists_cons_of_ne_nil nonempty
          obtain ⟨same, -⟩ := List.cons_prefix_cons.mp starts
          exact absurd (by simp [same]) colon
        · exact behind
      have bound := inside.length_le
      have skipped : skipKeyword (58 :: t) key = tmp.drop key.length := by
        unfold skipKeyword
        rw [found]
        dsimp only
        rw [if_pos (by rw [List.length_cons]; omega)]
      have rest := (skipAll_suffix keys (tmp.drop key.length)).length_le
      have positive := List.length_pos_iff.mpr nonempty
      have fits := starts.length_le
      rw [skipped]
      rw [List.length_drop] at rest
      rw [List.length_cons]
      exact .inr (by omega)

/-- The byte in front of the list is the colon behind the device, which stands
alone. -/
def ColonStands (before : UInt8) (device : CStr) : Prop :=
  device ≠ [] ∧ device.dropLast.getLastD before ≠ 58

/-- Behind the last colon the list is found again, if no keyword is. -/
theorem source_at (before : UInt8) (front t : CStr) (free : 58 ∉ t) (list : CStr)
    (short : t.length ≤ list.length) :
    (∃ args, ipv4Start (front ++ 58 :: t) = some args ∧
        ipv4Source before (front ++ 58 :: t) args = list) ↔
      (∀ key ∈ keywords, ¬ key <:+: 58 :: t) ∧
        (if front.getLastD before ≠ 58 then t else 58 :: t) = list := by
  have last : strrchr (front ++ 58 :: t) 58 = some (58 :: t) := by
    unfold strrchr
    rw [if_pos (by simp), afterLast_eq free]
  have start : ipv4Start (front ++ 58 :: t) =
      (let args := keywords.foldl skipKeyword (58 :: t)
      if args.length ≠ (58 :: t).length then strchr args 44 else some args) := by
    unfold ipv4Start
    rw [last, Option.bind_some]
  rw [start]
  rcases skipAll_cases (fun key known => known) t with ⟨still, none⟩ | shorter
  · rw [still]
    have source : ipv4Source before (front ++ 58 :: t) (58 :: t) =
        if front.getLastD before ≠ 58 then t else 58 :: t := by
      unfold ipv4Source
      rw [previous_append]
      rfl
    simp only [ne_eq, not_true_eq_false, if_false, Option.some.injEq, exists_eq_left', source]
    exact ⟨fun same => ⟨none, same⟩, And.right⟩
  · have moved : (keywords.foldl skipKeyword (58 :: t)).length ≠ (58 :: t).length := by omega
    constructor
    · rintro ⟨args, found, same⟩
      dsimp only at found
      rw [if_pos moved] at found
      have bound := (strchr_suffix found).length_le
      have part : (ipv4Source before (front ++ 58 :: t) args).length ≤ args.length := by
        unfold ipv4Source
        split
        · rw [List.length_drop]
          omega
        · exact Nat.le_refl _
      rw [same] at part
      rw [List.length_cons] at shorter
      omega
    · rintro ⟨none, -⟩
      exact absurd (skipAll_none none fun key known => known)
        (fun still => moved (congrArg List.length still))

theorem keyword_cons (key : CStr) (known : key ∈ keywords) (t : CStr) :
    key <:+: 58 :: t ↔ key <:+: t := by
  obtain ⟨nonempty, -, colon, -⟩ := keyword_facts known
  have same := strstrAt_cons colon nonempty t
  constructor
  · intro inside
    by_contra none
    rw [(strstrAt_none_iff nonempty t).mpr none, strstrAt_none_iff nonempty] at same
    exact same inside
  · exact fun inside => inside.trans (List.infix_cons (List.infix_refl t))

/-- The device of a path is empty or ends in a colon. -/
theorem deviceColon_last (stale : CStr) (before : UInt8) (fits : device.length < 768) :
    deviceColon stale before device = [] ∨
      ∃ front, deviceColon stale before device = front ++ [58] := by
  unfold deviceColon
  rw [if_pos fits]
  dsimp only
  split
  · exact .inr ⟨device, rfl⟩
  next ended =>
    rcases List.eq_nil_or_concat device with rfl | ⟨front, last, rfl⟩
    · exact .inl rfl
    · have colon : last = 58 := by simpa using ended
      exact .inr ⟨front, by rw [colon, List.concat_eq_append]⟩

/-- The arguments are taken from where they were put when no keyword is among them
and the colon stands. -/
theorem source_iff (before : UInt8) (list : CStr) (device : CStr) (free : 58 ∉ list)
    (last : device = [] ∨ ∃ front, device = front ++ [58]) :
    (∃ args, ipv4Start (device ++ list) = some args ∧
        ipv4Source before (device ++ list) args = list) ↔
      (∀ key ∈ keywords, ¬ key <:+: list) ∧ ColonStands before device := by
  unfold ColonStands
  rcases last with rfl | ⟨front, rfl⟩
  · have missing : ipv4Start ([] ++ list) = none := by
      unfold ipv4Start strrchr
      rw [List.nil_append, if_neg free, Option.bind_none]
    rw [missing]
    simp
  · rw [List.append_assoc, List.singleton_append, source_at before front list free list
      (Nat.le_refl _), List.dropLast_concat]
    have keys : (∀ key ∈ keywords, ¬ key <:+: 58 :: list) ↔ ∀ key ∈ keywords, ¬ key <:+: list :=
      forall₂_congr fun key known => not_congr (keyword_cons key known list)
    rw [keys]
    refine and_congr_right fun _ => ?_
    generalize front.getLastD before = byte
    by_cases colon : byte = 58
    · simp [colon]
    · simp [colon]

/-! ### What is read back -/

/-- The eight fields of a list. -/
structure Arguments where
  siaddr : CStr
  file : CStr
  ciaddr : CStr
  giaddr : CStr
  bootpRetries : CStr
  tftpRetries : CStr
  subnetmask : CStr
  addlParams : CStr

def Arguments.fields (a : Arguments) : List CStr :=
  [a.siaddr, a.file, a.ciaddr, a.giaddr, a.bootpRetries, a.tftpRetries, a.subnetmask, a.addlParams]

/-- The fields can stand in a list. -/
structure Arguments.Ok (a : Arguments) : Prop where
  server : Addressed a.siaddr
  name : a.file ≠ [] ∧ Item a.file
  client : Addressed a.ciaddr
  gateway : Addressed a.giaddr
  bootp : Item a.bootpRetries
  tftp : Item a.tftpRetries
  mask : Addressed a.subnetmask
  addl : a.addlParams ≠ [] ∧ 58 ∉ a.addlParams

theorem Arguments.joined_eq (a : Arguments) : joined a.fields =
    a.siaddr ++ 44 :: (a.file ++ 44 :: (a.ciaddr ++ 44 :: (a.giaddr ++ 44 ::
      (a.bootpRetries ++ 44 :: (a.tftpRetries ++ 44 :: (a.subnetmask ++ 44 :: a.addlParams)))))) :=
  rfl

theorem Arguments.Ok.free {a : Arguments} (ok : a.Ok) : 58 ∉ joined a.fields := by
  rw [a.joined_eq]
  simp only [List.mem_append, List.mem_cons, not_or]
  exact ⟨ok.server.item.2, by decide, ok.name.2.2, by decide, ok.client.item.2, by decide,
    ok.gateway.item.2, by decide, ok.bootp.2, by decide, ok.tftp.2, by decide, ok.mask.item.2,
    by decide, ok.addl.2⟩

/-- The copies of a list that holds all fields. -/
theorem Arguments.Ok.copies {a : Arguments} (ok : a.Ok) (r : BootFspec) :
    ∃ d, ipv4Copies ⟨0, joined a.fields⟩ r =
      ({ r with
          siaddr := isValidIpv4Str (some a.siaddr)
          file := some a.file
          ciaddr := isValidIpv4Str (some a.ciaddr)
          giaddr := isValidIpv4Str (some a.giaddr)
          bootpRetries := some a.bootpRetries
          tftpRetries := some a.tftpRetries
          subnetmask := isValidIpv4Str (some a.subnetmask) },
        ⟨d, a.addlParams⟩) := by
  refine ⟨0 + a.siaddr.length + 1 + a.file.length + 1 + a.ciaddr.length + 1 + a.giaddr.length + 1 +
    a.bootpRetries.length + 1 + a.tftpRetries.length + 1 + a.subnetmask.length + 1, ?_⟩
  rw [a.joined_eq]
  unfold ipv4Copies scopyAddress
  simp only [scopy_field _ ok.server.item.1, scopy_field _ ok.name.2.1,
    scopy_field _ ok.client.item.1, scopy_field _ ok.gateway.item.1, scopy_field _ ok.bootp.1,
    scopy_field _ ok.tftp.1, scopy_field _ ok.mask.item.1]

/-- The fields of a request are those, where one that is missing counts as empty. -/
structure Agrees (read : BootFspec) (a : Arguments) : Prop where
  siaddr : read.siaddr.getD [] = a.siaddr
  file : read.file.getD [] = a.file
  ciaddr : read.ciaddr.getD [] = a.ciaddr
  giaddr : read.giaddr.getD [] = a.giaddr
  bootpRetries : read.bootpRetries.getD [] = a.bootpRetries
  tftpRetries : read.tftpRetries.getD [] = a.tftpRetries
  subnetmask : read.subnetmask.getD [] = a.subnetmask
  addlParams : read.addlParams.getD [] = a.addlParams

/-- A copy in front of something is a field in front of a comma. -/
theorem scopy_more (copied : scopy c = (field, c')) (more : c'.source ≠ []) :
    c.source = field.getD [] ++ 44 :: c'.source := by
  cases field with
  | none =>
    unfold scopy at copied
    split at copied
    next empty =>
      cases copied
      exact absurd empty more
    · cases copied
  | some field =>
    rcases (scopy_item copied).2 with ⟨-, rest⟩ | split
    · exact absurd rest more
    · exact split

theorem scopyAddress_more (copied : scopyAddress c = (field, c')) (more : c'.source ≠ [])
    (filled : field.getD [] ≠ []) : c.source = field.getD [] ++ 44 :: c'.source := by
  cases field with
  | none => exact absurd rfl filled
  | some field => exact scopy_more (scopyAddress_item copied).1 more

theorem filled_of_append {a b : CStr} (same : c = a ++ 44 :: b) : c ≠ [] := by
  rw [same]
  simp

/-- Copies that agree with the fields were made from their list. -/
theorem source_of_agrees {a : Arguments} (ok : a.Ok) {c : Copying}
    {r : BootFspec}
    (read : Agrees { (ipv4Copies c r).1 with addlParams := some a.addlParams } a)
    (rest : (ipv4Copies c r).2.source = a.addlParams) : c.source = joined a.fields := by
  obtain ⟨siaddr, file, ciaddr, giaddr, bootp, tftp, mask, -⟩ := read
  cases first : scopyAddress c with
  | mk server c₁ =>
  cases second : scopy c₁ with
  | mk name c₂ =>
  cases third : scopyAddress c₂ with
  | mk client c₃ =>
  cases fourth : scopyAddress c₃ with
  | mk gateway c₄ =>
  cases fifth : scopy c₄ with
  | mk bootpRetries c₅ =>
  cases sixth : scopy c₅ with
  | mk tftpRetries c₆ =>
  cases seventh : scopyAddress c₆ with
  | mk netmask c₇ =>
  have whole : ipv4Copies c r = ({ r with
      siaddr := server, file := name, ciaddr := client, giaddr := gateway, bootpRetries,
      tftpRetries, subnetmask := netmask }, c₇) := by
    unfold ipv4Copies
    simp only [first, second, third, fourth, fifth, sixth, seventh]
  rw [whole] at siaddr file ciaddr giaddr bootp tftp mask rest
  dsimp only at siaddr file ciaddr giaddr bootp tftp mask rest
  have end₇ : c₇.source ≠ [] := by
    rw [rest]
    exact ok.addl.1
  have s₆ := scopyAddress_more seventh end₇ (by rw [mask]; exact ok.mask.filled)
  have s₅ := scopy_more sixth (filled_of_append s₆)
  have s₄ := scopy_more fifth (filled_of_append s₅)
  have s₃ := scopyAddress_more fourth (filled_of_append s₄) (by rw [giaddr]; exact ok.gateway.filled)
  have s₂ := scopyAddress_more third (filled_of_append s₃) (by rw [ciaddr]; exact ok.client.filled)
  have s₁ := scopy_more second (filled_of_append s₂)
  have s₀ := scopyAddress_more first (filled_of_append s₁) (by rw [siaddr]; exact ok.server.filled)
  rw [s₀, s₁, s₂, s₃, s₄, s₅, s₆, rest, siaddr, file, ciaddr, giaddr, bootp, tftp, mask]
  rfl

/-- The four addresses. -/
def Arguments.addresses (a : Arguments) : List CStr :=
  [a.siaddr, a.ciaddr, a.giaddr, a.subnetmask]

theorem getD_settled (filled : s ≠ []) (read : (isValidIpv4Str (some s)).getD [] = s) :
    Settled s := by
  unfold Settled
  cases value : isValidIpv4Str (some s) with
  | none =>
    rw [value] at read
    exact absurd read.symm filled
  | some s' =>
    rw [value] at read
    rw [show s' = s from read]

theorem extract_source (before : UInt8) (r : BootFspec)
    (start : ipv4Start path = some args) :
    (extractIpv4Args before path r).2 =
      if (ipv4Copies ⟨0, ipv4Source before path args⟩ r).2.source = [] then
        (ipv4Copies ⟨0, ipv4Source before path args⟩ r).1
      else { (ipv4Copies ⟨0, ipv4Source before path args⟩ r).1 with
        addlParams := some (ipv4Copies ⟨0, ipv4Source before path args⟩ r).2.source } := by
  unfold extractIpv4Args
  rw [start]

/-- The fields are read back when they are found where they were put, and the
addresses are accepted. -/
theorem agrees_iff {a : Arguments} (ok : a.Ok) (before : UInt8) (device : CStr) :
    Agrees (extractIpv4Args before (device ++ joined a.fields) .zero).2 a ↔
      (∃ args, ipv4Start (device ++ joined a.fields) = some args ∧
        ipv4Source before (device ++ joined a.fields) args = joined a.fields) ∧
        ∀ s ∈ a.addresses, Settled s := by
  obtain ⟨d, copies⟩ := ok.copies .zero
  constructor
  · intro reads
    cases start : ipv4Start (device ++ joined a.fields) with
    | none =>
      have siaddr := reads.siaddr
      unfold extractIpv4Args at siaddr
      rw [start] at siaddr
      exact absurd siaddr.symm ok.server.filled
    | some args =>
      have source : ipv4Source before (device ++ joined a.fields) args = joined a.fields := by
        have read := reads
        rw [extract_source before .zero start] at read
        split at read
        · exact absurd read.addlParams.symm ok.addl.1
        · have rest := read.addlParams
          rw [Option.getD_some] at rest
          rw [rest] at read
          exact source_of_agrees ok read rest
      refine ⟨⟨args, rfl, source⟩, ?_⟩
      rw [extract_source before .zero start, source, copies, if_neg ok.addl.1] at reads
      unfold Arguments.addresses
      simp only [List.forall_mem_cons, List.not_mem_nil, false_imp_iff, implies_true, and_true]
      exact ⟨getD_settled ok.server.filled reads.siaddr,
        getD_settled ok.client.filled reads.ciaddr, getD_settled ok.gateway.filled reads.giaddr,
        getD_settled ok.mask.filled reads.subnetmask⟩
  · rintro ⟨⟨args, start, source⟩, settled⟩
    have read {s : CStr} (member : s ∈ a.addresses) :
        (isValidIpv4Str (some s)).getD [] = s := by
      rw [settled s member]
      rfl
    rw [extract_source before .zero start, source, copies, if_neg ok.addl.1]
    exact ⟨read (by simp [Arguments.addresses]), rfl, read (by simp [Arguments.addresses]),
      read (by simp [Arguments.addresses]), rfl, rfl, read (by simp [Arguments.addresses]), rfl⟩

/-! ### The path that is opened -/

/-- The arguments a request is written with. -/
structure Arguments.Of (a : Arguments) (r : BootFspec) : Prop where
  siaddr : r.siaddr = some a.siaddr
  file : r.file.map backslashed = some a.file
  ciaddr : r.ciaddr = some a.ciaddr
  giaddr : r.giaddr = some a.giaddr
  bootpRetries : r.bootpRetries = some a.bootpRetries
  tftpRetries : r.tftpRetries = some a.tftpRetries
  subnetmask : r.subnetmask = some a.subnetmask
  addlParams : r.addlParams = some a.addlParams

/-- The fields are the same, but for `/` in the file name, and one that is missing
counts as empty. -/
structure ReadsBack (read r : BootFspec) : Prop where
  siaddr : read.siaddr.getD [] = r.siaddr.getD []
  file : read.file.getD [] = backslashed (r.file.getD [])
  ciaddr : read.ciaddr.getD [] = r.ciaddr.getD []
  giaddr : read.giaddr.getD [] = r.giaddr.getD []
  bootpRetries : read.bootpRetries.getD [] = r.bootpRetries.getD []
  tftpRetries : read.tftpRetries.getD [] = r.tftpRetries.getD []
  subnetmask : read.subnetmask.getD [] = r.subnetmask.getD []
  addlParams : read.addlParams.getD [] = r.addlParams.getD []

theorem filename_some (file : r.file = some name) (named : name ≠ []) :
    filename r = some (backslashed name) := by
  unfold filename
  rw [file]
  exact if_neg named

/-- No null pointer is appended when all fields are there. -/
theorem pieces_present (v4 : r.isIpv6 = false) (file : r.file = some name) (named : name ≠ [])
    (low : CStr) : none ∉ ofNetPieces low true r ↔ ∃ a : Arguments, a.Of r := by
  constructor
  · intro present
    have set {p : Option CStr} (appended : p ∈ ofNetPieces low true r) : ∃ s, p = some s :=
      Option.ne_none_iff_exists'.mp fun missing => present (missing ▸ appended)
    obtain ⟨siaddr, server⟩ := set (p := r.siaddr) (by simp [ofNetPieces])
    obtain ⟨ciaddr, client⟩ := set (p := r.ciaddr) (by simp [ofNetPieces])
    obtain ⟨giaddr, gateway⟩ := set (p := r.giaddr) (by simp [ofNetPieces])
    obtain ⟨bootpRetries, bootp⟩ := set (p := r.bootpRetries) (by simp [ofNetPieces])
    obtain ⟨tftpRetries, tftp⟩ := set (p := r.tftpRetries) (by simp [ofNetPieces])
    obtain ⟨subnetmask, mask⟩ := set (p := r.subnetmask) (by simp [ofNetPieces])
    obtain ⟨addlParams, addl⟩ := set (p := r.addlParams) (by simp [ofNetPieces])
    exact ⟨⟨siaddr, backslashed name, ciaddr, giaddr, bootpRetries, tftpRetries, subnetmask,
      addlParams⟩, server, by rw [file]; rfl, client, gateway, bootp, tftp, mask, addl⟩
  · rintro ⟨a, siaddr, -, ciaddr, giaddr, bootp, tftp, mask, addl⟩
    unfold ofNetPieces
    simp [filename_some file named, v4, siaddr, ciaddr, giaddr, bootp, tftp, mask, addl]

theorem Arguments.Of.written {a : Arguments} (of : a.Of r) (file : r.file = some name) :
    a.file = backslashed name := by
  have same := of.file
  rw [file] at same
  exact (Option.some.inj same).symm

theorem ofNetPath_arguments {a : Arguments} (of : a.Of r) (v4 : r.isIpv6 = false)
    (dev : r.dev = some device) (file : r.file = some name) (named : name ≠ [])
    (low stale : CStr) (before : UInt8) :
    ofNetPath low stale before true r = deviceColon stale before device ++ joined a.fields := by
  unfold ofNetPath ofNetPieces
  rw [filename_some file named, a.joined_eq]
  simp [v4, dev, deref, of.siaddr, of.written file, of.ciaddr, of.giaddr, of.bootpRetries, of.tftpRetries,
    of.subnetmask, of.addlParams]

theorem backslashed_free {c : UInt8} (free : c ∉ name) (other : c ≠ 92) : c ∉ backslashed name := by
  intro member
  obtain ⟨d, held, same⟩ := List.mem_map.mp member
  split at same
  · exact other same.symm
  · exact free (same ▸ held)

theorem Arguments.Of.ok {a : Arguments} (of : a.Of r) (listed : Listed r)
    (file : r.file = some name) (named : name ≠ []) (plain : Item name) : a.Ok where
  server := listed.siaddr _ of.siaddr
  name := by
    rw [of.written file]
    exact ⟨by simpa [backslashed] using named, backslashed_free plain.1 (by decide),
      backslashed_free plain.2 (by decide)⟩
  client := listed.ciaddr _ of.ciaddr
  gateway := listed.giaddr _ of.giaddr
  bootp := listed.bootpRetries _ of.bootpRetries
  tftp := listed.tftpRetries _ of.tftpRetries
  mask := listed.subnetmask _ of.subnetmask
  addl := listed.addlParams _ of.addlParams

/-- A request reads back exactly if the arguments read agree with those written. -/
theorem Arguments.Of.readsBack_iff {a : Arguments} (of : a.Of r) (file : r.file = some name)
    (read : BootFspec) : ReadsBack read r ↔ Agrees read a := by
  constructor
  · rintro ⟨siaddr, named, ciaddr, giaddr, bootp, tftp, mask, addl⟩
    rw [of.siaddr] at siaddr
    rw [file] at named
    rw [of.ciaddr] at ciaddr
    rw [of.giaddr] at giaddr
    rw [of.bootpRetries] at bootp
    rw [of.tftpRetries] at tftp
    rw [of.subnetmask] at mask
    rw [of.addlParams] at addl
    exact ⟨siaddr, named.trans (of.written file).symm, ciaddr, giaddr, bootp, tftp, mask, addl⟩
  · rintro ⟨siaddr, named, ciaddr, giaddr, bootp, tftp, mask, addl⟩
    constructor
    · rwa [of.siaddr]
    · rw [file, named]
      exact of.written file
    · rwa [of.ciaddr]
    · rwa [of.giaddr]
    · rwa [of.bootpRetries]
    · rwa [of.tftpRetries]
    · rwa [of.subnetmask]
    · rwa [of.addlParams]

theorem Arguments.Ok.settled_iff {a : Arguments} (ok : a.Ok) :
    (∀ s ∈ a.addresses, Settled s) ↔ ∀ s ∈ a.addresses, ¬ ReservedText s := by
  refine forall₂_congr fun s member => Addressed.settled_iff ?_
  simp only [Arguments.addresses, List.mem_cons, List.not_mem_nil, or_false] at member
  rcases member with rfl | rfl | rfl | rfl
  · exact ok.server
  · exact ok.client
  · exact ok.gateway
  · exact ok.mask

theorem field_joined {fields : List CStr} (member : field ∈ fields) : field <:+: joined fields := by
  induction fields with
  | nil => cases member
  | cons first more ih =>
    cases more with
    | nil =>
      rw [List.mem_singleton.mp member]
      exact List.infix_refl _
    | cons next more =>
      rw [joined_cons _ _ (by simp)]
      rcases List.mem_cons.mp member with rfl | later
      · exact (List.prefix_append _ _).isInfix
      · exact ((ih later).trans (List.infix_cons (List.infix_refl _))).trans
          (List.suffix_append _ _).isInfix

/-- The path `of_net_open` writes for a request of the parser holds no null pointer
and reads back just when every field is there, none holds a keyword, the colon
behind the device stands alone, and no address is one of the two that are refused. -/
theorem ofNetOpen_iff (before before' : UInt8) (low stale : CStr) (produced : Produced r)
    (v4 : r.isIpv6 = false) (dev : r.dev = some device) (fits : device.length < 768)
    (file : r.file = some name) (named : name ≠ []) (plain : Item name) :
    (none ∉ ofNetPieces low true r ∧
      ReadsBack (extractIpv4Args before' (ofNetPath low stale before true r) .zero).2 r) ↔
      ∃ a : Arguments, a.Of r ∧ (∀ key ∈ keywords, ∀ field ∈ a.fields, ¬ key <:+: field) ∧
        ColonStands before' (deviceColon stale before device) ∧
        ∀ s ∈ a.addresses, ¬ ReservedText s := by
  have listed : Listed r := produced.kept.resolve_left (by simp [v4])
  have whole {a : Arguments} (of : a.Of r) :
      ReadsBack (extractIpv4Args before' (ofNetPath low stale before true r) .zero).2 r ↔
      ((∀ key ∈ keywords, ∀ field ∈ a.fields, ¬ key <:+: field) ∧
        ColonStands before' (deviceColon stale before device)) ∧
        ∀ s ∈ a.addresses, ¬ ReservedText s := by
    have ok := of.ok listed file named plain
    have keys : (∀ key ∈ keywords, ¬ key <:+: joined a.fields) ↔
        ∀ key ∈ keywords, ∀ field ∈ a.fields, ¬ key <:+: field :=
      forall₂_congr fun key known =>
        ⟨fun none field member inside => none (inside.trans (field_joined member)),
          joined_no_keyword known⟩
    rw [ofNetPath_arguments of v4 dev file named, of.readsBack_iff file, agrees_iff ok,
      source_iff before' _ _ ok.free (deviceColon_last stale before fits), keys, ok.settled_iff]
  rw [pieces_present v4 file named]
  constructor
  · rintro ⟨⟨a, of⟩, reads⟩
    obtain ⟨⟨keys, colon⟩, free⟩ := (whole of).mp reads
    exact ⟨a, of, keys, colon, free⟩
  · rintro ⟨a, of, keys, colon, free⟩
    exact ⟨⟨a, of⟩, (whole of).mpr ⟨⟨keys, colon⟩, free⟩⟩

/-- A network device, and no boot packet. -/
def netMachine : Machine where
  devtype := fun _ => .ok .net
  nasBootdevice := fun device => (false, device)
  netinfo := none
  before := 0

/-- The request for a path without a default device. -/
theorem produced_path (path : CStr)
    (returned : (parseDevicePath netMachine (some path) none (-1) [] .zero ⟨[], []⟩).value =
      some (true, r)) : Produced r :=
  .parsed netMachine (some path) none (-1) [] ⟨[], []⟩ .zero returned

/-- A request with all eight fields. -/
def fullRequest : BootFspec := { BootFspec.zero with
  dev := some (cstr "enet:")
  part := -1
  siaddr := some (cstr "10.0.0.11")
  file := some (cstr "bootme")
  ciaddr := some (cstr "10.0.0.12")
  giaddr := some (cstr "10.0.0.1")
  bootpRetries := some (cstr "5")
  tftpRetries := some (cstr "5")
  subnetmask := some (cstr "255.255.255.0")
  addlParams := some (cstr "blksize=512") }

def fullArguments : Arguments :=
  ⟨cstr "10.0.0.11", cstr "bootme", cstr "10.0.0.12", cstr "10.0.0.1", cstr "5", cstr "5",
    cstr "255.255.255.0", cstr "blksize=512"⟩

theorem fullRequest_produced : Produced fullRequest :=
  produced_path
    (cstr "enet:10.0.0.11,bootme,10.0.0.12,10.0.0.1,5,5,255.255.255.0,blksize=512")
    (by decide +kernel)

theorem fullArguments_of : fullArguments.Of fullRequest :=
  ⟨rfl, by decide +kernel, rfl, rfl, rfl, rfl, rfl, rfl⟩

/-- A request with all eight fields is written and read back as it was. -/
theorem fullRequest_readsBack :
    none ∉ ofNetPieces [] true fullRequest ∧
      ReadsBack (extractIpv4Args 0 (ofNetPath [] [] 0 true fullRequest) .zero).2 fullRequest :=
  (ofNetOpen_iff 0 0 [] [] fullRequest_produced rfl rfl (by decide +kernel) rfl
    (by decide +kernel) ⟨by decide +kernel, by decide +kernel⟩).mpr
    ⟨fullArguments, fullArguments_of, by decide +kernel, by unfold ColonStands; decide +kernel,
      by unfold ReservedText; decide +kernel⟩

/-- The request for a path that was cut short behind the file. -/
def shortRequest : BootFspec := { BootFspec.zero with
  dev := some (cstr "enet:")
  part := -1
  siaddr := some (cstr "10.0.0.11")
  file := some (cstr "bootme") }

/-- A path cut short behind its file leaves six null pointers, and the first is handed to `strcat`.
-/
theorem shortRequest_null : Produced shortRequest ∧ none ∈ ofNetPieces [] true shortRequest :=
  ⟨produced_path (cstr "enet:10.0.0.11,bootme") (by decide +kernel), by decide +kernel⟩

end Yaboot.Netboot
