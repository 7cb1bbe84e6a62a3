import Yaboot.Netboot.AddressProofs
import Yaboot.Netboot.Netinfo

/-! Which of the addresses of a boot packet and its options is taken. -/
namespace Yaboot.Netboot
open CString Fs

/-- An option of a packet. -/
structure VendorOption where
  tag : UInt8
  data : List UInt8
  named : tag ≠ dhcpPad ∧ tag ≠ dhcpEnd
  short : data.length < 256

/-- Padding, or an option. -/
def encode : Option VendorOption → List UInt8
  | none => [dhcpPad]
  | some o => o.tag :: UInt8.ofNat o.data.length :: o.data

/-- The cookie, the items, and the end. -/
def vendorArea (items : List (Option VendorOption)) : List UInt8 :=
  [0x63, 0x82, 0x53, 0x63] ++ items.flatMap encode ++ [dhcpEnd]

/-- The address an option holds in its first four bytes. -/
def VendorOption.value (o : VendorOption) : UInt32 := wordOf (o.data.take 4)

/-- The addresses the options of a kind hold. -/
def addresses (tag : UInt8) (items : List (Option VendorOption)) : List UInt32 :=
  ((items.filterMap id).filter fun o => o.tag == tag).map VendorOption.value

/-- A field that is set stays. Otherwise the first address that is not zero is
taken, if there is one. -/
def firstOf (old : Option CStr) (ips : List UInt32) : Option CStr :=
  if unset old then ((ips.find? (· != 0)).map ipv4ToStr).or old else old

theorem firstOf_nil (old : Option CStr) : firstOf old [] = old := by simp [firstOf]

theorem unset_ipv4ToStr (ip : UInt32) : unset (some (ipv4ToStr ip)) = false := by
  have filled : ipv4ToStr ip ≠ [] := by simp [ipv4ToStr]
  simpa [unset] using filled

theorem find?_nonzero (ip : UInt32) (ips : List UInt32) :
    (ip :: ips).find? (· != 0) = if ip ≠ 0 then some ip else ips.find? (· != 0) := by
  rw [List.find?_cons]
  by_cases zero : ip = 0
  · simp [zero]
  · rw [bne_iff_ne.mpr zero, if_pos zero]

/-- Filling in one address leaves the choice among the others. -/
theorem firstOf_fill (old : Option CStr) (ip : UInt32) (ips : List UInt32) :
    firstOf (fill old ip) ips = firstOf old (ip :: ips) := by
  unfold firstOf fill
  rw [find?_nonzero]
  by_cases missing : unset old = true
  · by_cases zero : ip = 0
    · simp [missing, zero]
    · simp [missing, zero, unset_ipv4ToStr]
  · simp [missing]

theorem fill_eq (old : Option CStr) (ip : UInt32) : fill old ip = firstOf old [ip] := by
  rw [← firstOf_fill, firstOf_nil]

theorem addresses_pad (tag : UInt8) (items : List (Option VendorOption)) :
    addresses tag (none :: items) = addresses tag items := by
  unfold addresses
  rw [List.filterMap_cons_none (by simp)]

theorem addresses_cons (tag : UInt8) (o : VendorOption) (items : List (Option VendorOption)) :
    addresses tag (some o :: items) =
      if o.tag = tag then o.value :: addresses tag items else addresses tag items := by
  unfold addresses
  rw [List.filterMap_cons_some (b := o) (by simp), List.filter_cons]
  by_cases same : o.tag = tag
  · rw [if_pos (beq_iff_eq.mpr same), if_pos same, List.map_cons]
  · rw [if_neg (by simpa using same), if_neg same]

theorem vendorLoop_end (behind : List UInt8) (r : BootFspec) :
    vendorLoop (dhcpEnd :: behind) r = some r := by
  rw [vendorLoop.eq_def]
  simp only [if_true]

theorem vendorLoop_pad (rest : List UInt8) (r : BootFspec) :
    vendorLoop (dhcpPad :: rest) r = vendorLoop rest r := by
  rw [vendorLoop.eq_def]
  simp only [if_neg (show ¬ dhcpPad = dhcpEnd by decide), if_true]

theorem toNat_length (o : VendorOption) : (UInt8.ofNat o.data.length).toNat = o.data.length := by
  rw [UInt8.toNat_ofNat']
  exact Nat.mod_eq_of_lt o.short

theorem vendorLoop_option (o : VendorOption) (rest : List UInt8) (r : BootFspec) :
    vendorLoop (encode (some o) ++ rest) r = vendorLoop rest (storeOption o.tag o.value r) := by
  unfold encode
  rw [List.cons_append, List.cons_append, vendorLoop.eq_def]
  have whole : ¬ (o.data ++ rest).length < min o.data.length 4 := by
    rw [List.length_append]
    omega
  simp only [if_neg o.named.1, if_neg o.named.2, toNat_length, if_neg whole, List.drop_left]
  rw [List.take_append_of_le_length (Nat.min_le_left _ _), Nat.min_comm, ← List.take_eq_take_min]
  unfold VendorOption.value
  rfl

/-- What the items do to the two fields they can set. -/
def applied (items : List (Option VendorOption)) (r : BootFspec) : BootFspec :=
  { r with
    giaddr := firstOf r.giaddr (addresses dhcpRouters items)
    subnetmask := firstOf r.subnetmask (addresses dhcpNetmask items) }

theorem applied_nil (r : BootFspec) : applied [] r = r := by
  unfold applied addresses
  simp [firstOf_nil]

theorem applied_pad (items : List (Option VendorOption)) (r : BootFspec) :
    applied (none :: items) r = applied items r := by
  unfold applied
  rw [addresses_pad, addresses_pad]

/-- The first option is stored, and the others find its address. -/
theorem applied_option (o : VendorOption) (items : List (Option VendorOption)) (r : BootFspec) :
    applied items (storeOption o.tag o.value r) = applied (some o :: items) r := by
  unfold applied
  rw [addresses_cons, addresses_cons]
  unfold storeOption
  by_cases netmask : o.tag = dhcpNetmask
  · have router : ¬ o.tag = dhcpRouters := by
      rw [netmask]
      decide
    rw [if_pos netmask, if_pos netmask, if_neg router, firstOf_fill]
  · rw [if_neg netmask, if_neg netmask]
    by_cases router : o.tag = dhcpRouters
    · rw [if_pos router, if_pos router, firstOf_fill]
    · rw [if_neg router, if_neg router]

/-- The loop stops at the end mark, whatever lies behind it. -/
theorem vendorLoop_items (items : List (Option VendorOption)) (behind : List UInt8)
    (r : BootFspec) :
    vendorLoop (items.flatMap encode ++ dhcpEnd :: behind) r = some (applied items r) := by
  induction items generalizing r with
  | nil => rw [List.flatMap_nil, List.nil_append, vendorLoop_end, applied_nil]
  | cons item items continued =>
    rw [List.flatMap_cons, List.append_assoc]
    cases item with
    | none =>
      rw [applied_pad, ← continued r]
      exact vendorLoop_pad _ r
    | some o => rw [vendorLoop_option, continued, applied_option]

theorem wordOf_cookie (rest : List UInt8) :
    wordOf (0x63 :: 0x82 :: 0x53 :: 0x63 :: rest) = dhcpCookie := by
  unfold wordOf
  simp only [List.getElem?_cons_zero, List.getElem?_cons_succ, Option.elim_some]
  decide

theorem extractVendorOptions_items (items : List (Option VendorOption)) (behind : List UInt8)
    (r : BootFspec) :
    extractVendorOptions (vendorArea items ++ behind) r = some (applied items r) := by
  unfold extractVendorOptions
  have area : vendorArea items ++ behind =
      0x63 :: 0x82 :: 0x53 :: 0x63 :: (items.flatMap encode ++ dhcpEnd :: behind) := by
    simp [vendorArea]
  rw [area, if_neg (by simp), if_neg (not_not.mpr (wordOf_cookie _))]
  exact vendorLoop_items items behind r

/-- `yiaddr` stands in for a `ciaddr` that is zero. -/
theorem fill_ciaddr (old : Option CStr) (ciaddr yiaddr : UInt32) :
    fill old (if ciaddr = 0 ∧ yiaddr ≠ 0 then yiaddr else ciaddr) =
      firstOf old [ciaddr, yiaddr] := by
  rw [fill_eq]
  unfold firstOf
  rw [find?_nonzero, find?_nonzero, find?_nonzero]
  by_cases zero : ciaddr = 0
  · by_cases zero' : yiaddr = 0
    · simp [zero, zero']
    · simp [zero, zero']
  · simp [zero]

/-- Fields that are set stay. The packet comes before its options, and the
server stands in for a gateway that is missing altogether. Nothing behind the
end mark is read. -/
theorem extractNetinfoArgs_precedence (p : BootpPacket) (items : List (Option VendorOption))
    (behind : List UInt8) (r : BootFspec) :
    extractNetinfoArgs (some { p with options := vendorArea items ++ behind }) r = some { r with
      siaddr := firstOf r.siaddr [p.siaddr]
      ciaddr := firstOf r.ciaddr [p.ciaddr, p.yiaddr]
      giaddr := (firstOf r.giaddr (p.giaddr :: addresses dhcpRouters items)).or
        (some (ipv4ToStr p.siaddr))
      subnetmask := firstOf r.subnetmask (addresses dhcpNetmask items) } := by
  unfold extractNetinfoArgs
  simp only [extractVendorOptions_items, Option.map_some, applied, fill_ciaddr, firstOf_fill]
  rw [fill_eq]
  cases found : firstOf r.giaddr (p.giaddr :: addresses dhcpRouters items) with
  | none => simp
  | some ip => simp

end Yaboot.Netboot
