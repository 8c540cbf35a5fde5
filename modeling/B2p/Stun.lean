import B2p.Crypto

/-!
# STUN answers (`stun.rs`)

`b2p doctor` asks a STUN server for the address it sees. The answer is a datagram anybody can send: a
header of 20 bytes, then attributes, each a type, a length, so many bytes, and padding to a multiple of
four.

* `parseXorMappedAddress` — the parser. An index out of bounds is a panic, and `none` here; what the source
  returns is inside.
* `attrLoop_isSome` — there is no panic, whatever the datagram.
* `attrLoop_append` — the loop does not depend on where in the datagram it is.
* `parse_total_and_inverts` — the address of a well-formed answer is found behind any other attributes.
-/

namespace B2p
namespace Stun

/-! ## Addresses and bytes -/

/-- `[u8; n]`. -/
abbrev Octets (n : Nat) := { b : Bytes // b.length = n }

/-- Byte by byte. -/
def Octets.xor {n : Nat} (a key : Octets n) : Octets n :=
  ⟨List.zipWith (· ^^^ ·) a.1 key.1, by rw [List.length_zipWith, a.2, key.2, Nat.min_self]⟩

inductive SocketAddr where
  | v4 (ip : Octets 4) (port : UInt16)
  | v6 (ip : Octets 16) (port : UInt16)
  deriving DecidableEq

def MAGIC_COOKIE : Octets 4 := ⟨[0x21, 0x12, 0xA4, 0x42], rfl⟩

/-- `u16::from_be_bytes`. -/
def u16FromBe (hi lo : UInt8) : UInt16 := UInt16.ofNat (256 * hi.toNat + lo.toNat)

/-- `u16::to_be_bytes`. -/
def u16ToBe (n : UInt16) : Bytes := [UInt8.ofNat (n.toNat / 256), UInt8.ofNat (n.toNat % 256)]

/-- The two bytes at `i`. -/
def u16At (resp : Bytes) (i : Nat) : Option UInt16 := do
  let hi ← resp[i]?
  let lo ← resp[i + 1]?
  return u16FromBe hi lo

/-- The `n` bytes from `i` on. -/
def octetsAt (resp : Bytes) (i n : Nat) : Option (Octets n) :=
  if h : i + n ≤ resp.length then
    some ⟨(resp.drop i).take n, by rw [List.length_take, List.length_drop]; omega⟩
  else none

/-- The key of an IPv6 address. -/
def v6Key (txnId : Octets 12) : Octets 16 :=
  ⟨MAGIC_COOKIE.1 ++ txnId.1, by rw [List.length_append, MAGIC_COOKIE.2, txnId.2]⟩

/-! ## The parser -/

/-- `encode_binding_request`. -/
def encodeBindingRequest (txnId : Octets 12) : Bytes := [0, 1, 0, 0] ++ MAGIC_COOKIE.1 ++ txnId.1

/-- `is_binding_response`. -/
def isBindingResponse (resp : Bytes) (txnId : Octets 12) : Option Bool :=
  if resp.length ≥ 20 then do
    let cookie ← octetsAt resp 4 4
    let txn ← octetsAt resp 8 12
    return decide (cookie = MAGIC_COOKIE ∧ txn = txnId)
  else some false

/-- The value of an XOR-MAPPED-ADDRESS of `len` bytes at `val`. -/
def readAddress (resp : Bytes) (txnId : Octets 12) (val len : Nat) : Option (Option SocketAddr) := do
  let port ← u16At resp (val + 2)
  let port := port ^^^ 0x2112
  let family ← resp[val + 1]?
  if family = 0x01 ∧ len ≥ 8 then
    let a ← octetsAt resp (val + 4) 4
    return some (.v4 (a.xor MAGIC_COOKIE) port)
  else if family = 0x02 ∧ len ≥ 20 then
    let a ← octetsAt resp (val + 4) 16
    return some (.v6 (a.xor (v6Key txnId)) port)
  else return none

/-- The loop over the attributes. -/
def attrLoop (resp : Bytes) (txnId : Octets 12) (i : Nat) : Option (Option SocketAddr) :=
  if _ : i + 4 ≤ resp.length then
    match u16At resp i, u16At resp (i + 2) with
    | some attrType, some len =>
        let val := i + 4
        let stop := val + len.toNat
        if stop > resp.length then some none
        else if attrType = 0x0020 ∧ len.toNat ≥ 4 then readAddress resp txnId val len.toNat
        else attrLoop resp txnId (stop + (4 - len.toNat % 4) % 4)
    | _, _ => none
  else some none
termination_by resp.length - i
decreasing_by omega

/-- `parse_xor_mapped_address`. -/
def parseXorMappedAddress (resp : Bytes) (txnId : Octets 12) : Option (Option SocketAddr) := do
  if ← isBindingResponse resp txnId then attrLoop resp txnId 20 else return none

/-! ## No index is out of bounds -/

theorem u16At_isSome {resp : Bytes} {i : Nat} (h : i + 2 ≤ resp.length) : (u16At resp i).isSome := by
  rw [u16At, List.getElem?_eq_getElem (by omega), List.getElem?_eq_getElem (by omega)]
  rfl

theorem octetsAt_isSome {resp : Bytes} {i n : Nat} (h : i + n ≤ resp.length) :
    (octetsAt resp i n).isSome := by
  rw [octetsAt, dif_pos h]
  rfl

theorem readAddress_isSome {resp : Bytes} {txnId : Octets 12} {val len : Nat} (hlen : 4 ≤ len)
    (h : val + len ≤ resp.length) : (readAddress resp txnId val len).isSome := by
  have hfamily : resp[val + 1]? = some resp[val + 1] := List.getElem?_eq_getElem (by omega)
  obtain ⟨port, hport⟩ := Option.isSome_iff_exists.mp (u16At_isSome (show val + 2 + 2 ≤ resp.length by omega))
  simp only [readAddress, hport, hfamily, Option.bind_eq_bind, Option.bind_some]
  split
  · next hv4 =>
      obtain ⟨a, ha⟩ := Option.isSome_iff_exists.mp
        (octetsAt_isSome (show val + 4 + 4 ≤ resp.length by omega))
      rw [ha]
      rfl
  · split
    · next hv6 =>
        obtain ⟨a, ha⟩ := Option.isSome_iff_exists.mp
          (octetsAt_isSome (show val + 4 + 16 ≤ resp.length by omega))
        rw [ha]
        rfl
    · rfl

/-- **The loop never indexes out of bounds.** -/
theorem attrLoop_isSome (resp : Bytes) (txnId : Octets 12) (i : Nat) : (attrLoop resp txnId i).isSome := by
  fun_induction attrLoop resp txnId i with
  | case1 => rfl
  | case2 i h attrType len hlen htype val stop hstop hmapped =>
      exact readAddress_isSome hmapped.2 (Nat.le_of_not_lt hstop)
  | case3 i h attrType len hlen htype val stop hstop hmapped ih => exact ih
  | case4 i h hnone =>
      -- both halves of the header are there
      obtain ⟨attrType, htype⟩ := Option.isSome_iff_exists.mp (u16At_isSome (show i + 2 ≤ resp.length by omega))
      obtain ⟨len, hlen⟩ := Option.isSome_iff_exists.mp (u16At_isSome (show i + 2 + 2 ≤ resp.length by omega))
      exact (hnone attrType len htype hlen).elim
  | case5 => rfl

theorem isBindingResponse_eq {resp : Bytes} (txnId : Octets 12) (h : 20 ≤ resp.length) :
    ∃ cookie txn, octetsAt resp 4 4 = some cookie ∧ octetsAt resp 8 12 = some txn ∧
      isBindingResponse resp txnId = some (decide (cookie = MAGIC_COOKIE ∧ txn = txnId)) := by
  obtain ⟨cookie, hcookie⟩ := Option.isSome_iff_exists.mp (octetsAt_isSome (show 4 + 4 ≤ resp.length by omega))
  obtain ⟨txn, htxn⟩ := Option.isSome_iff_exists.mp (octetsAt_isSome (show 8 + 12 ≤ resp.length by omega))
  refine ⟨cookie, txn, hcookie, htxn, ?_⟩
  rw [isBindingResponse, if_pos h, hcookie, htxn]
  rfl

theorem parse_isSome (resp : Bytes) (txnId : Octets 12) : (parseXorMappedAddress resp txnId).isSome := by
  by_cases h : 20 ≤ resp.length
  · obtain ⟨cookie, txn, -, -, heq⟩ := isBindingResponse_eq txnId h
    rw [parseXorMappedAddress, heq]
    simp only [Option.bind_eq_bind, Option.bind_some]
    split
    · exact attrLoop_isSome resp txnId 20
    · rfl
  · rw [parseXorMappedAddress, isBindingResponse, if_neg h]
    rfl

/-! ## The loop does not depend on what came before -/

theorem getElem?_shift (pre s : Bytes) (k : Nat) : (pre ++ s)[pre.length + k]? = s[k]? := by
  rw [List.getElem?_append_right (by omega), Nat.add_sub_cancel_left]

theorem u16At_append (pre s : Bytes) (k : Nat) : u16At (pre ++ s) (pre.length + k) = u16At s k := by
  rw [u16At, Nat.add_assoc, getElem?_shift, getElem?_shift]
  rfl

theorem octetsAt_append (pre s : Bytes) (k n : Nat) :
    octetsAt (pre ++ s) (pre.length + k) n = octetsAt s k n := by
  by_cases h : k + n ≤ s.length
  · have h' : pre.length + k + n ≤ (pre ++ s).length := by
      rw [List.length_append]
      omega
    rw [octetsAt, octetsAt, dif_pos h, dif_pos h']
    simp
  · have h' : ¬ pre.length + k + n ≤ (pre ++ s).length := by
      rw [List.length_append]
      omega
    rw [octetsAt, octetsAt, dif_neg h, dif_neg h']

theorem readAddress_append (pre s : Bytes) (txnId : Octets 12) (k len : Nat) :
    readAddress (pre ++ s) txnId (pre.length + k) len = readAddress s txnId k len := by
  simp only [readAddress, Nat.add_assoc, u16At_append, getElem?_shift, octetsAt_append]

/-- What the loop does with an attribute whose header is there. -/
theorem attrLoop_eq {resp : Bytes} {txnId : Octets 12} {i : Nat} {attrType len : UInt16}
    (h : i + 4 ≤ resp.length) (htype : u16At resp i = some attrType)
    (hlen : u16At resp (i + 2) = some len) : attrLoop resp txnId i =
      if i + 4 + len.toNat > resp.length then some none
      else if attrType = 0x0020 ∧ len.toNat ≥ 4 then readAddress resp txnId (i + 4) len.toNat
      else attrLoop resp txnId (i + 4 + len.toNat + (4 - len.toNat % 4) % 4) := by
  rw [attrLoop, dif_pos h, htype, hlen]

/-- **Where in a datagram the attributes are does not matter.** -/
theorem attrLoop_append (pre s : Bytes) (txnId : Octets 12) (k : Nat) :
    attrLoop (pre ++ s) txnId (pre.length + k) = attrLoop s txnId k := by
  have hlength : (pre ++ s).length = pre.length + s.length := List.length_append
  have hshift : ∀ {k : Nat} {attrType len : UInt16}, k + 4 ≤ s.length → u16At s k = some attrType →
      u16At s (k + 2) = some len → attrLoop (pre ++ s) txnId (pre.length + k) =
        if k + 4 + len.toNat > s.length then some none
        else if attrType = 0x0020 ∧ len.toNat ≥ 4 then readAddress s txnId (k + 4) len.toNat
        else attrLoop (pre ++ s) txnId (pre.length + (k + 4 + len.toNat + (4 - len.toNat % 4) % 4)) := by
    intro k attrType len h htype hlen
    have hpos : pre.length + k + 4 ≤ (pre ++ s).length := by omega
    have hhdr : u16At (pre ++ s) (pre.length + k + 2) = some len := by
      rw [Nat.add_assoc, u16At_append, hlen]
    rw [attrLoop_eq hpos ((u16At_append pre s k).trans htype) hhdr, hlength]
    simp only [Nat.add_assoc, readAddress_append, gt_iff_lt, Nat.add_lt_add_iff_left]
  fun_induction attrLoop s txnId k with
  | case1 k h attrType len hlen htype val stop hstop =>
      rw [hshift h htype hlen, if_pos hstop]
  | case2 k h attrType len hlen htype val stop hstop hmapped =>
      rw [hshift h htype hlen, if_neg hstop, if_pos hmapped]
  | case3 k h attrType len hlen htype val stop hstop hmapped ih =>
      rw [hshift h htype hlen, if_neg hstop, if_neg hmapped]
      exact ih
  | case4 k h hnone =>
      obtain ⟨attrType, htype⟩ := Option.isSome_iff_exists.mp (u16At_isSome (show k + 2 ≤ s.length by omega))
      obtain ⟨len, hlen⟩ := Option.isSome_iff_exists.mp (u16At_isSome (show k + 2 + 2 ≤ s.length by omega))
      exact (hnone attrType len htype hlen).elim
  | case5 k h => rw [attrLoop, dif_neg (by omega)]

/-! ## Answers as RFC 5389 writes them -/

/-- An attribute with its padding. -/
structure Attribute where
  type : UInt16
  value : Bytes
  padding : Bytes
  short : value.length < 2 ^ 16
  padded : padding.length = (4 - value.length % 4) % 4

def Attribute.encode (a : Attribute) : Bytes :=
  u16ToBe a.type ++ u16ToBe (UInt16.ofNat a.value.length) ++ a.value ++ a.padding

/-- The family and the masked address of an XOR-MAPPED-ADDRESS. -/
def SocketAddr.value (txnId : Octets 12) (reserved : UInt8) : SocketAddr → Bytes
  | .v4 ip port => reserved :: 0x01 :: (u16ToBe (port ^^^ 0x2112) ++ (ip.xor MAGIC_COOKIE).1)
  | .v6 ip port => reserved :: 0x02 :: (u16ToBe (port ^^^ 0x2112) ++ (ip.xor (v6Key txnId)).1)

theorem SocketAddr.length_value (txnId : Octets 12) (reserved : UInt8) (addr : SocketAddr) :
    (addr.value txnId reserved).length = match addr with
      | .v4 _ _ => 8
      | .v6 _ _ => 20 := by
  cases addr with
  | v4 ip port => simp [value, u16ToBe, (ip.xor MAGIC_COOKIE).2]
  | v6 ip port => simp [value, u16ToBe, (ip.xor (v6Key txnId)).2]

/-- An XOR-MAPPED-ADDRESS; its length is a multiple of four. -/
def SocketAddr.encode (txnId : Octets 12) (reserved : UInt8) (addr : SocketAddr) : Bytes :=
  u16ToBe 0x0020 ++ u16ToBe (UInt16.ofNat (addr.value txnId reserved).length) ++ addr.value txnId reserved

theorem u16FromBe_u16ToBe (n : UInt16) :
    u16FromBe (UInt8.ofNat (n.toNat / 256)) (UInt8.ofNat (n.toNat % 256)) = n := by
  have hlt := n.toNat_lt
  have hhi : (UInt8.ofNat (n.toNat / 256)).toNat = n.toNat / 256 := UInt8.toNat_ofNat_of_lt' (by
    show _ < 256
    omega)
  have hlo : (UInt8.ofNat (n.toNat % 256)).toNat = n.toNat % 256 :=
    UInt8.toNat_ofNat_of_lt' (Nat.mod_lt _ (by decide))
  rw [u16FromBe, hhi, hlo, Nat.div_add_mod, UInt16.ofNat_toNat]

@[simp] theorem length_u16ToBe (n : UInt16) : (u16ToBe n).length = 2 := rfl

theorem u16At_u16ToBe (pre s : Bytes) (n : UInt16) : u16At (pre ++ u16ToBe n ++ s) pre.length = some n := by
  rw [List.append_assoc]
  refine (u16At_append pre (u16ToBe n ++ s) 0).trans ?_
  show some (u16FromBe _ _) = some n
  rw [u16FromBe_u16ToBe]

/-- The masks are their own inverses. -/
theorem Octets.xor_xor {n : Nat} (a key : Octets n) : (a.xor key).xor key = a := by
  obtain ⟨a, ha⟩ := a
  obtain ⟨key, hkey⟩ := key
  refine Subtype.ext ?_
  show List.zipWith (· ^^^ ·) (List.zipWith (· ^^^ ·) a key) key = a
  refine List.ext_getElem ?_ ?_
  · simp [ha, hkey]
  · intro i h₁ h₂
    simp only [List.getElem_zipWith]
    rw [UInt8.xor_assoc, UInt8.xor_self, UInt8.xor_zero]

theorem octetsAt_self {n : Nat} (a : Octets n) (s : Bytes) : octetsAt (a.1 ++ s) 0 n = some a := by
  have h : 0 + n ≤ (a.1 ++ s).length := by
    rw [List.length_append, a.2]
    omega
  rw [octetsAt, dif_pos h, Option.some.injEq]
  refine Subtype.ext ?_
  show ((a.1 ++ s).drop 0).take n = a.1
  rw [List.drop_zero, List.take_left' a.2]

/-- The header of an attribute, where the attribute is all that is left. -/
theorem attrLoop_header {txnId : Octets 12} {attrType : UInt16} {value s : Bytes}
    (hlen : value.length < 2 ^ 16) :
    attrLoop (u16ToBe attrType ++ u16ToBe (UInt16.ofNat value.length) ++ (value ++ s)) txnId 0 =
      if attrType = 0x0020 ∧ value.length ≥ 4 then readAddress (value ++ s) txnId 0 value.length
      else attrLoop (u16ToBe attrType ++ u16ToBe (UInt16.ofNat value.length) ++ (value ++ s)) txnId
        (4 + value.length + (4 - value.length % 4) % 4) := by
  have hnat : (UInt16.ofNat value.length).toNat = value.length := UInt16.toNat_ofNat_of_lt' hlen
  have htype : u16At (u16ToBe attrType ++ u16ToBe (UInt16.ofNat value.length) ++ (value ++ s)) 0
      = some attrType := by
    rw [List.append_assoc]
    exact u16At_u16ToBe [] _ attrType
  have hlen' : u16At (u16ToBe attrType ++ u16ToBe (UInt16.ofNat value.length) ++ (value ++ s)) (0 + 2)
      = some (UInt16.ofNat value.length) := u16At_u16ToBe (u16ToBe attrType) (value ++ s) _
  have hread := readAddress_append (u16ToBe attrType ++ u16ToBe (UInt16.ofNat value.length)) (value ++ s)
    txnId 0 value.length
  rw [attrLoop_eq (by simp; omega) htype hlen', hnat, if_neg (by simp; omega)]
  simp only [Nat.zero_add]
  split
  · exact hread
  · rfl

/-- An attribute of another type is skipped, with its padding. -/
theorem attrLoop_attribute {txnId : Octets 12} {a : Attribute} (h : a.type ≠ 0x0020) (s : Bytes) :
    attrLoop (a.encode ++ s) txnId 0 = attrLoop s txnId 0 := by
  have hlen : a.encode.length = 4 + a.value.length + (4 - a.value.length % 4) % 4 := by
    simp [Attribute.encode, a.padded]
    omega
  have hsplit : a.encode ++ s
      = u16ToBe a.type ++ u16ToBe (UInt16.ofNat a.value.length) ++ (a.value ++ (a.padding ++ s)) := by
    simp [Attribute.encode]
  have hskip := attrLoop_append a.encode s txnId 0
  rw [Nat.add_zero, hlen] at hskip
  rw [← hskip, hsplit, attrLoop_header a.short, if_neg (fun hm => h hm.1)]

theorem attrLoop_attributes {txnId : Octets 12} {attrs : List Attribute} (h : ∀ a ∈ attrs, a.type ≠ 0x0020)
    (s : Bytes) : attrLoop (attrs.flatMap Attribute.encode ++ s) txnId 0 = attrLoop s txnId 0 := by
  induction attrs with
  | nil => rfl
  | cons a attrs ih =>
      rw [List.flatMap_cons, List.append_assoc, attrLoop_attribute (h a List.mem_cons_self)]
      exact ih fun b hb => h b (List.mem_cons_of_mem _ hb)

/-- What is read of the bytes behind a family and a port. -/
theorem readAddress_bytes (reserved family : UInt8) (port : UInt16) {n : Nat} (ip : Octets n) (s : Bytes) :
    let bytes := [reserved, family] ++ u16ToBe (port ^^^ 0x2112) ++ (ip.1 ++ s)
    u16At bytes (0 + 2) = some (port ^^^ 0x2112) ∧ bytes[0 + 1]? = some family ∧
      octetsAt bytes (0 + 4) n = some ip := by
  refine ⟨u16At_u16ToBe [reserved, family] _ _, rfl, ?_⟩
  exact (octetsAt_append ([reserved, family] ++ u16ToBe (port ^^^ 0x2112)) (ip.1 ++ s) 0 n).trans
    (octetsAt_self ip s)

/-- The value of an XOR-MAPPED-ADDRESS is read back. -/
theorem readAddress_value (txnId : Octets 12) (reserved : UInt8) (addr : SocketAddr) (s : Bytes) :
    readAddress (addr.value txnId reserved ++ s) txnId 0 (addr.value txnId reserved).length
      = some (some addr) := by
  have hmask : ∀ port : UInt16, port ^^^ 0x2112 ^^^ 0x2112 = port := by
    intro port
    rw [UInt16.xor_assoc, UInt16.xor_self, UInt16.xor_zero]
  rw [SocketAddr.length_value]
  cases addr with
  | v4 ip port =>
      obtain ⟨hport, hfamily, hip⟩ := readAddress_bytes reserved 0x01 port (ip.xor MAGIC_COOKIE) s
      have hbytes : (SocketAddr.v4 ip port).value txnId reserved ++ s
          = [reserved, 0x01] ++ u16ToBe (port ^^^ 0x2112) ++ ((ip.xor MAGIC_COOKIE).1 ++ s) := by
        simp [SocketAddr.value]
      rw [hbytes, readAddress, hport]
      simp only [Option.bind_eq_bind, Option.bind_some, hfamily]
      rw [if_pos ⟨trivial, by decide⟩, hip]
      simp [hmask, Octets.xor_xor]
  | v6 ip port =>
      obtain ⟨hport, hfamily, hip⟩ := readAddress_bytes reserved 0x02 port (ip.xor (v6Key txnId)) s
      have hbytes : (SocketAddr.v6 ip port).value txnId reserved ++ s
          = [reserved, 0x02] ++ u16ToBe (port ^^^ 0x2112) ++ ((ip.xor (v6Key txnId)).1 ++ s) := by
        simp [SocketAddr.value]
      rw [hbytes, readAddress, hport]
      simp only [Option.bind_eq_bind, Option.bind_some, hfamily]
      rw [if_neg (fun h => absurd h.1 (by decide)), if_pos ⟨trivial, by decide⟩, hip]
      simp [hmask, Octets.xor_xor]

theorem attrLoop_address (txnId : Octets 12) (reserved : UInt8) (addr : SocketAddr) (s : Bytes) :
    attrLoop (addr.encode txnId reserved ++ s) txnId 0 = some (some addr) := by
  have hlong : 4 ≤ (addr.value txnId reserved).length := by
    rw [SocketAddr.length_value]
    cases addr <;> simp
  have hshort : (addr.value txnId reserved).length < 2 ^ 16 := by
    rw [SocketAddr.length_value]
    cases addr <;> simp
  rw [SocketAddr.encode, List.append_assoc, attrLoop_header hshort, if_pos ⟨rfl, hlong⟩]
  exact readAddress_value txnId reserved addr s

/-! ## Whole answers -/

/-- The header of 20 bytes: type and length, cookie, and transaction id. -/
def header (typeAndLength cookie : Octets 4) (txnId : Octets 12) : Bytes :=
  typeAndLength.1 ++ cookie.1 ++ txnId.1

theorem isBindingResponse_header (typeAndLength cookie : Octets 4) (txnId txnId' : Octets 12) (s : Bytes) :
    isBindingResponse (header typeAndLength cookie txnId ++ s) txnId'
      = some (decide (cookie = MAGIC_COOKIE ∧ txnId = txnId')) := by
  have hcookie : octetsAt (header typeAndLength cookie txnId ++ s) 4 4 = some cookie := by
    have h := octetsAt_append typeAndLength.1 (cookie.1 ++ (txnId.1 ++ s)) 0 4
    rw [typeAndLength.2, octetsAt_self] at h
    simpa [header] using h
  have htxn : octetsAt (header typeAndLength cookie txnId ++ s) 8 12 = some txnId := by
    have h := octetsAt_append (typeAndLength.1 ++ cookie.1) (txnId.1 ++ s) 0 12
    rw [List.length_append, typeAndLength.2, cookie.2, octetsAt_self] at h
    simpa [header] using h
  have hlong : 20 ≤ (header typeAndLength cookie txnId ++ s).length := by
    simp [header, typeAndLength.2, cookie.2, txnId.2]
    omega
  obtain ⟨cookie', txn', hc, ht, heq⟩ := isBindingResponse_eq txnId' hlong
  rw [hcookie] at hc
  rw [htxn] at ht
  cases hc
  cases ht
  exact heq

/-- A request sent back is taken for an answer to itself. -/
theorem isBindingResponse_request (txnId : Octets 12) (s : Bytes) :
    isBindingResponse (encodeBindingRequest txnId ++ s) txnId = some true := by
  have h := isBindingResponse_header ⟨[0, 1, 0, 0], rfl⟩ MAGIC_COOKIE txnId txnId s
  rwa [decide_eq_true ⟨rfl, rfl⟩] at h

/-- **Parsing is total and inverts the encoding**: no datagram makes an index go out of bounds; the
address of a well-formed answer is returned, whatever attributes of other types come before it and
whatever comes after; and an answer with another cookie or transaction id has none. -/
theorem parse_total_and_inverts :
    (∀ resp txnId, (parseXorMappedAddress resp txnId).isSome) ∧
    (∀ typeAndLength txnId (attrs : List Attribute) reserved addr rest, (∀ a ∈ attrs, a.type ≠ 0x0020) →
      parseXorMappedAddress (header typeAndLength MAGIC_COOKIE txnId ++
        (attrs.flatMap Attribute.encode ++ (addr.encode txnId reserved ++ rest))) txnId = some (some addr)) ∧
    ∀ typeAndLength cookie txn txnId rest, cookie ≠ MAGIC_COOKIE ∨ txn ≠ txnId →
      parseXorMappedAddress (header typeAndLength cookie txn ++ rest) txnId = some none := by
  refine ⟨parse_isSome, ?_, ?_⟩
  · intro typeAndLength txnId attrs reserved addr rest hattrs
    have hlen : (header typeAndLength MAGIC_COOKIE txnId).length = 20 := by
      simp [header, typeAndLength.2, MAGIC_COOKIE.2, txnId.2]
    have hloop := attrLoop_append (header typeAndLength MAGIC_COOKIE txnId)
      (attrs.flatMap Attribute.encode ++ (addr.encode txnId reserved ++ rest)) txnId 0
    rw [Nat.add_zero, hlen, attrLoop_attributes hattrs, attrLoop_address] at hloop
    rw [parseXorMappedAddress, isBindingResponse_header]
    simpa using hloop
  · intro typeAndLength cookie txn txnId rest hne
    rw [parseXorMappedAddress, isBindingResponse_header, decide_eq_false (by tauto)]
    rfl

end Stun
end B2p
