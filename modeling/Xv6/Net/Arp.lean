import Xv6.Param
import Xv6.Lib.LittleEndian

/-!
The ARP frame of `arpfrm.c`: the `eth_head` structure as the bytes i386 GCC lays it out in,
`initframe` writing a request into them, and `parsereply` reading a reply out of them.

`eth_head` has no packing attribute, so each field starts at a multiple of its alignment: the
32-bit `dip` that follows the 6-byte `arpdmac` at offset 38 starts at 40, and the structure is
48 bytes long. `sendrequest` sends its first `sizeof(eth) - 2` = 46 bytes. `getip` reads the
string at the position `j` within the field instead of at the loop counter `i`.
`parsereply` compares the fields as the host reads them with constants that `initframe`
stores swapped by `hton`, and `parseip`'s copy loop never ends.

The structure is a byte store (`Nat → UInt8`, its offsets from the start of `eth`); the
stack bytes the source never writes are whatever the store held before. `blockuntilreply`
fills nothing, so `sys_arp` copies out the hex of six of those bytes (`sys_arp_leaks_stack`).
-/

namespace Xv6.Arp

/-! ### The layout of `eth_head` -/

/-- The fields of `eth_head`, in declaration order. -/
inductive Field
  | dmac | smac | ethtype | hwtype | prottype | hwsize | protsize | opercode
  | arpsmac | sip | arpdmac | dip | padd
  deriving DecidableEq, Repr

namespace Field

def size : Field → Nat
  | dmac | smac | arpsmac | arpdmac => 6
  | ethtype | hwtype | prottype | opercode | padd => 2
  | hwsize | protsize => 1
  | sip | dip => 4

/-- The alignment of the field's type on i386: 1 for bytes, 2 for `uint16_t`, 4 for
`uint32_t`. -/
def align : Field → Nat
  | dmac | smac | arpsmac | arpdmac | hwsize | protsize => 1
  | ethtype | hwtype | prottype | opercode | padd => 2
  | sip | dip => 4

def all : List Field :=
  [dmac, smac, ethtype, hwtype, prottype, hwsize, protsize, opercode, arpsmac, sip, arpdmac,
    dip, padd]

end Field

/-- `n` rounded up to a multiple of `a`. -/
def alignUp (n a : Nat) : Nat := (n + a - 1) / a * a

/-- The C layout rule: each field starts at the first multiple of its alignment at or after
the end of the field before it. -/
def layout : List Field → Nat → List (Field × Nat)
  | [], _ => []
  | f :: fs, off => (f, alignUp off f.align) :: layout fs (alignUp off f.align + f.size)

def Field.offset (f : Field) : Nat := ((layout Field.all 0).lookup f).getD 0

/-- `sizeof(eth_head)`: the end of `padd`, rounded up to the largest alignment, 4. -/
def sizeofEthHead : Nat := alignUp (Field.padd.offset + Field.padd.size) 4

@[simp] theorem sizeofEthHead_eq : sizeofEthHead = 48 := by decide

@[simp] theorem offset_dmac : Field.dmac.offset = 0 := by decide
@[simp] theorem offset_smac : Field.smac.offset = 6 := by decide
@[simp] theorem offset_ethtype : Field.ethtype.offset = 12 := by decide
@[simp] theorem offset_hwtype : Field.hwtype.offset = 14 := by decide
@[simp] theorem offset_prottype : Field.prottype.offset = 16 := by decide
@[simp] theorem offset_hwsize : Field.hwsize.offset = 18 := by decide
@[simp] theorem offset_protsize : Field.protsize.offset = 19 := by decide
@[simp] theorem offset_opercode : Field.opercode.offset = 20 := by decide
@[simp] theorem offset_arpsmac : Field.arpsmac.offset = 22 := by decide
@[simp] theorem offset_sip : Field.sip.offset = 28 := by decide
@[simp] theorem offset_arpdmac : Field.arpdmac.offset = 32 := by decide
@[simp] theorem offset_dip : Field.dip.offset = 40 := by decide
@[simp] theorem offset_padd : Field.padd.offset = 44 := by decide

/-! ### Stores and loads -/

/-- `memmove(eth + off, bs, bs.length)`: the bytes `bs` from `off` on. -/
def store (m : Nat → UInt8) (off : Nat) (bs : List UInt8) : Nat → UInt8 :=
  fun x => if off ≤ x ∧ x < off + bs.length then bs.getD (x - off) 0 else m x

/-- The bytes x86 stores for a `uint16_t`, low byte first. -/
def le16 (v : UInt16) : List UInt8 := [v.toUInt8, (v >>> 8).toUInt8]

/-- The bytes x86 stores for a `uint32_t`, low byte first. -/
def le32 (v : UInt32) : List UInt8 :=
  [v.toUInt8, (v >>> 8).toUInt8, (v >>> 16).toUInt8, (v >>> 24).toUInt8]

/-- A sequence of field assignments, in order. -/
def storeFields (m : Nat → UInt8) (ws : List (Field × List UInt8)) : Nat → UInt8 :=
  ws.foldl (fun m w => store m w.1.offset w.2) m

/-- The value of a numeric field as the host reads it. -/
def load (m : Nat → UInt8) (f : Field) : Nat := LittleEndian.read m f.offset f.size

/-- The bytes of an array field. -/
def bytes (m : Nat → UInt8) (f : Field) : List UInt8 := (List.range f.size).map fun i => m (f.offset + i)

@[simp] theorem le16_length (v : UInt16) : (le16 v).length = 2 := rfl
@[simp] theorem le32_length (v : UInt32) : (le32 v).length = 4 := rfl

theorem store_apply (m : Nat → UInt8) (off : Nat) (bs : List UInt8) (x : Nat) :
    store m off bs x = if off ≤ x ∧ x < off + bs.length then bs.getD (x - off) 0 else m x := rfl

@[simp] theorem store_apply_of_lt {m : Nat → UInt8} {off x : Nat} {bs : List UInt8}
    (hx : x < off) : store m off bs x = m x := by
  simp only [store]
  rw [if_neg (by omega)]

@[simp] theorem store_apply_of_ge {m : Nat → UInt8} {off x : Nat} {bs : List UInt8}
    (hx : off + bs.length ≤ x) : store m off bs x = m x := by
  simp only [store]
  rw [if_neg (by omega)]

theorem store_apply_mem (m : Nat → UInt8) (off : Nat) (bs : List UInt8) {i : Nat}
    (hi : i < bs.length) : store m off bs (off + i) = bs[i] := by
  simp only [store]
  rw [if_pos (by omega), Nat.add_sub_cancel_left, ← List.getElem_eq_getD]

/-! ### `arpfrm.c` -/

/-- `hton`: `(v >> 8) | (v << 8)`, computed in `int` and truncated to 16 bits. -/
def hton (v : UInt16) : UInt16 := (v >>> 8) ||| (v <<< 8)

/-- `hextoint`: the value of a hex digit, 0 for any other byte. -/
def hextoint (c : UInt8) : UInt32 :=
  if ch '0' ≤ c ∧ c ≤ ch '9' then (c - ch '0').toUInt32
  else if ch 'A' ≤ c ∧ c ≤ ch 'F' then 10 + (c - ch 'A').toUInt32
  else if ch 'a' ≤ c ∧ c ≤ ch 'f' then 10 + (c - ch 'a').toUInt32
  else 0

/-- `packmac`: the six bytes written in `XX:XX:XX:XX:XX:XX`, from the digits at `i` and `i + 1`
for `i = 0, 3, .., 15`. -/
def packmac (macstr : List UInt8) : List UInt8 :=
  (List.range 6).map fun j =>
    ((hextoint (macstr.getD (3 * j) 0) <<< 4) + hextoint (macstr.getD (3 * j + 1) 0)).toUInt8

@[simp] theorem packmac_length (macstr : List UInt8) : (packmac macstr).length = 6 := by
  simp [packmac]

/-- `packmac` of `BROADCASTMAC`: six `0xff` bytes. -/
theorem packmac_broadcast : packmac (cstr "FF:FF:FF:FF:FF:FF") = List.replicate 6 0xff := by
  decide

/-- `inttohex`: the hex digit of `n`, `'0'` when `n` is not below 16. -/
def inttohex (n : UInt32) : UInt8 :=
  if n ≤ 9 then ch '0' + n.toUInt8
  else if 10 ≤ n ∧ n ≤ 15 then ch 'A' + (n - 10).toUInt8
  else ch '0'

/-- `unpackmac`: two hex digits and a `:` per byte, the last `:` overwritten by the NUL. -/
def unpackmac (mac : List UInt8) : List UInt8 :=
  ((List.range 6).flatMap fun i =>
    [inttohex (((mac.getD i 0).toUInt32 &&& 0xf0) >>> 4), inttohex ((mac.getD i 0).toUInt32 &&& 0x0f),
      ch ':']).dropLast

/-- `atoi` of `util.c`, from the accumulator `n`: the decimal number at the front of `s`. -/
def atoi : List UInt8 → Nat → Nat
  | [], n => n
  | c :: s, n => if ch '0' ≤ c ∧ c ≤ ch '9' then atoi s (n * 10 + (c - ch '0').toNat) else n

/-- `strcmp` of `util.c` on two strings given without their NUL. -/
def strcmp : List UInt8 → List UInt8 → Int
  | a :: p, b :: q => if a ≠ 0 ∧ a = b then strcmp p q else (a.toNat : Int) - b.toNat
  | a :: _, [] => a.toNat
  | [], b :: _ => -(b.toNat : Int)
  | [], [] => 0

/-- The locals of `getip`'s loop: the bytes of the field being read, `arr[0..j)`, so that `j`
is their number; the count `k` of fields read; and `ipvals`. -/
structure Getip where
  arr : List UInt8
  k : Nat
  ipvals : Fin 4 → UInt32

/-- `arr[j++] = '\0'; j = 0; ipvals[k++] = atoi(arr);`, `none` where it writes past `arr[3]`
or `ipvals[3]`. -/
def Getip.field (g : Getip) : Option Getip :=
  if h : g.arr.length < 4 ∧ g.k < 4 then
    some ⟨[], g.k + 1, Function.update g.ipvals ⟨g.k, h.2⟩ (atoi g.arr 0).toUInt32⟩
  else none

/-- One pass of `getip`'s loop on `c = ip[j]`: a `.` ends the field, any other byte is added
to it (`none` past `arr[3]`). -/
def Getip.step (ip : List UInt8) (g : Getip) : Option Getip :=
  if ip.getD g.arr.length 0 = ch '.' then g.field
  else if g.arr.length < 4 then some { g with arr := g.arr ++ [ip.getD g.arr.length 0] }
  else none

/-- `for (i = 0; i < len; i++)`, `n` passes. -/
def Getip.loop (ip : List UInt8) : Nat → Getip → Option Getip
  | 0, g => some g
  | n + 1, g => (g.step ip).bind (loop ip n)

/-- `getip(ip, len)`, with `junk` what the uninitialised `ipvals` holds; `none` where the code
writes out of bounds. -/
def getip (ip : List UInt8) (len : Nat) (junk : Fin 4 → UInt32) : Option UInt32 :=
  ((Getip.loop ip len ⟨[], 0, junk⟩).bind Getip.field).map fun (g : Getip) =>
    (g.ipvals 3 <<< 24) + (g.ipvals 2 <<< 16) + (g.ipvals 1 <<< 8) + g.ipvals 0

/-- The string `initframe` gives `getip` for the sender address. -/
def SIP : List UInt8 := cstr "192.168.1.1"

/-- `BROADCASTMAC`. -/
def BROADCASTMAC : List UInt8 := cstr "FF:FF:FF:FF:FF:FF"

/-- The assignments of `initframe`, in the source's order. -/
def requestFields (smac : Fin 6 → UInt8) (sip dip : UInt32) : List (Field × List UInt8) :=
  [(.dmac, packmac BROADCASTMAC), (.smac, List.ofFn smac), (.ethtype, le16 (hton 0x0806)),
    (.hwtype, le16 (hton 1)), (.prottype, le16 (hton 0x0800)), (.hwsize, [0x06]),
    (.protsize, [0x04]), (.opercode, le16 (hton 1)), (.arpsmac, List.ofFn smac),
    (.arpdmac, packmac BROADCASTMAC), (.sip, le32 sip), (.dip, le32 dip)]

/-- `initframe(smac, ipadd, eth)` on the bytes `eth` of the structure, with `sj` and `dj` what
the uninitialised `ipvals` of its two `getip` calls hold. -/
def initframe (smac : Fin 6 → UInt8) (ipadd : List UInt8) (sj dj : Fin 4 → UInt32)
    (eth : Nat → UInt8) : Option (Nat → UInt8) :=
  (getip SIP SIP.length sj).bind fun sip =>
    (getip ipadd ipadd.length dj).map fun dip => storeFields eth (requestFields smac sip dip)

/-- The bytes `sendrequest` hands to the driver: the first `sizeof(eth) - 2` of `eth`. -/
def sent (eth : Nat → UInt8) : List UInt8 := (List.range (sizeofEthHead - 2)).map eth

/-- `for (k = k - 1; j >= 0; j--) ipstr[j++] = arr[k];`, run for at most `fuel` passes: each
pass leaves `j` as it was, so with `j >= 0` the loop does not end. -/
def spin : Nat → Int → Option Int
  | 0, _ => none
  | fuel + 1, j => if 0 ≤ j then spin fuel (j + 1 - 1) else some j

/-- `parseip`'s loop over `ipvals[i]`, building `ipstr`: `0:` for a zero entry; for any other,
the digits in `arr` and then the copy loop, after which `ipstr[j++] = ':'`. -/
def parseipLoop (fuel : Nat) (ipvals : Fin 4 → UInt32) :
    List (Fin 4) → List UInt8 → Option (List UInt8)
  | [], ipstr => some ipstr
  | i :: is, ipstr =>
    if ipvals i = 0 then parseipLoop fuel ipvals is (ipstr ++ [ch '0', ch ':'])
    else (spin fuel ipstr.length).bind fun _ => parseipLoop fuel ipvals is (ipstr ++ [ch ':'])

/-- `parseip(ip, ipstr)`, with `junk` what the uninitialised `ipvals` holds. The first loop
runs once (`i = 0`, then `i--`) and sets `ipvals[0] = ip && v`, a logical and, so 0 or 1; the
last `:` becomes the terminating NUL. -/
def parseip (fuel : Nat) (ip : UInt32) (junk : Fin 4 → UInt32) : Option (List UInt8) :=
  (parseipLoop fuel (Function.update junk 0 (if ip ≠ 0 then 1 else 0)) [0, 1, 2, 3] []).map
    List.dropLast

/-- What `parsereply` prints. -/
inductive Reply
  | notArp | notIpv4 | notReply | notRecipient
  /-- the sender's hardware address, `unpackmac(eth.arpsmac)` -/
  | accept (mac : List UInt8)
  deriving DecidableEq, Repr

/-- `parsereply(eth)`, with `junk` what `parseip`'s `ipvals` holds; `none` when `parseip` has not
returned after `fuel` passes of its copy loop. -/
def parsereply (fuel : Nat) (eth : Nat → UInt8) (junk : Fin 4 → UInt32) : Option Reply :=
  if load eth .ethtype ≠ 0x0806 then some .notArp
  else if load eth .prottype ≠ 0x0800 then some .notIpv4
  else if load eth .opercode ≠ 2 then some .notReply
  else if strcmp (cstr "FF:FF:FF:FF:FF:FF") (unpackmac (bytes eth .arpdmac)) ≠ 0 then
    some .notRecipient
  else (parseip fuel (UInt32.ofNat (load eth .dip)) junk).map fun dip =>
    if strcmp (cstr "255.255.255.255") dip ≠ 0 then .notRecipient
    else .accept (unpackmac (bytes eth .arpsmac))


/-! ### What `initframe` sends -/

/-! `getip` indexes `ip` with `arr.length`, which restarts at 0 with every field, so every
field it reads is the first one of `ip`. -/

/-- `ip` opens with the digits `f`, fewer than four, and a `.`. -/
structure FirstField (ip f : List UInt8) : Prop where
  digits : ∀ i < f.length, ip.getD i 0 = f.getD i 0 ∧ f.getD i 0 ≠ ch '.'
  short : f.length < 4
  dot : ip.getD f.length 0 = ch '.'

section FirstField

variable {ip f : List UInt8} (hip : FirstField ip f) {k : Nat} {ipvals : Fin 4 → UInt32}
include hip

/-- Passes inside a field add the next bytes of `f` to `arr`. -/
theorem FirstField.loop_take (n : Nat) :
    ∀ i j, i + j ≤ f.length →
      Getip.loop ip (j + n) ⟨f.take i, k, ipvals⟩ = Getip.loop ip n ⟨f.take (i + j), k, ipvals⟩
  | i, 0, _ => by rw [Nat.zero_add, Nat.add_zero]
  | i, j + 1, hij => by
    have hi : i < f.length := by omega
    have hlen : (f.take i).length = i := List.length_take_of_le (by omega)
    obtain ⟨hget, hnot⟩ := hip.digits i hi
    have hstep : Getip.step ip ⟨f.take i, k, ipvals⟩ = some ⟨f.take (i + 1), k, ipvals⟩ := by
      rw [Getip.step, hlen, hget, if_neg hnot, if_pos (by have := hip.short; omega),
        List.take_add_one, List.getD_eq_getElem?_getD, List.getElem?_eq_getElem hi,
        Option.toList_some, Option.getD_some]
    rw [show j + 1 + n = (j + n) + 1 by omega, Getip.loop, hstep, Option.bind_some,
      FirstField.loop_take n (i + 1) j (by omega), Nat.add_right_comm, Nat.add_assoc]

/-- A last field with no `.` after it: its passes leave its bytes in `arr`. -/
theorem FirstField.loop_prefix {j : Nat} (hj : j ≤ f.length) :
    Getip.loop ip j ⟨[], k, ipvals⟩ = some ⟨f.take j, k, ipvals⟩ := by
  have h : Getip.loop ip (j + 0) ⟨f.take 0, k, ipvals⟩ =
      Getip.loop ip 0 ⟨f.take (0 + j), k, ipvals⟩ := hip.loop_take 0 0 j (by omega)
  rwa [List.take_zero, Nat.zero_add] at h

/-- A whole field: the bytes of `f`, then the pass over the `.` stores `atoi(f)`. -/
theorem FirstField.loop_field (hk : k < 4) (n : Nat) :
    Getip.loop ip (f.length + 1 + n) ⟨[], k, ipvals⟩ =
      Getip.loop ip n ⟨[], k + 1, Function.update ipvals ⟨k, hk⟩ (atoi f 0).toUInt32⟩ := by
  have h : Getip.loop ip (f.length + (n + 1)) ⟨f.take 0, k, ipvals⟩ =
      Getip.loop ip (n + 1) ⟨f.take (0 + f.length), k, ipvals⟩ :=
    hip.loop_take (n + 1) 0 f.length (by omega)
  rw [List.take_zero, Nat.zero_add, List.take_length] at h
  rw [Nat.add_assoc, Nat.add_comm 1 n, h, Getip.loop, Getip.step, hip.dot, if_pos rfl,
    Getip.field, dif_pos ⟨hip.short, hk⟩, Option.bind_some]

end FirstField

/-- `getip`'s result, stored by x86, lays the four fields out in memory in order. -/
theorem le32_quad (a b c d : UInt32) (ha : a < 256) (hb : b < 256) (hc : c < 256) :
    le32 ((d <<< 24) + (c <<< 16) + (b <<< 8) + a) = [a.toUInt8, b.toUInt8, c.toUInt8, d.toUInt8] := by
  have ha' := UInt32.lt_iff_toNat_lt.mp ha
  have hb' := UInt32.lt_iff_toNat_lt.mp hb
  have hc' := UInt32.lt_iff_toNat_lt.mp hc
  simp only [le32, List.cons.injEq, and_true]
  -- each byte is one field: the fields below 256 do not carry into each other
  refine ⟨?_, ?_, ?_, ?_⟩ <;> apply UInt8.toNat_inj.mp <;>
    simp [UInt32.toNat_add, UInt32.toNat_shiftLeft, UInt32.toNat_shiftRight] at * <;> omega

/-- The sender address: reading `ip[j]`, `getip` goes over `192.` three times and leaves
`ipvals[3]` as it found it. -/
theorem getip_sip (junk : Fin 4 → UInt32) :
    getip SIP SIP.length junk =
      some ((junk 3 <<< 24) + ((192 : UInt32) <<< 16) + ((192 : UInt32) <<< 8) + 192) := by
  have hip : FirstField SIP (cstr "192") := ⟨by decide, by decide, by decide⟩
  -- two fields of `192.`, then `192` once more
  rw [getip, show SIP.length = (cstr "192").length + 1 + ((cstr "192").length + 1 + 3) from rfl,
    hip.loop_field (by decide), hip.loop_field (by decide), hip.loop_prefix (by decide)]
  simp [Getip.field, atoi, cstr, ch]

/-- The 22 bytes of Ethernet and ARP header `initframe` writes are the request's: broadcast
destination, the source address, EtherType `0x0806`, `HTYPE` 1, `PTYPE` `0x0800`, `HLEN` 6,
`PLEN` 4 and `OPER` 1, each 16-bit field in network order. -/
theorem initframe_header {smac : Fin 6 → UInt8} {ipadd : List UInt8} {sj dj : Fin 4 → UInt32}
    {eth eth' : Nat → UInt8} (h : initframe smac ipadd sj dj eth = some eth') :
    (sent eth').take 22 = List.replicate 6 0xff ++ List.ofFn smac ++
      [0x08, 0x06, 0x00, 0x01, 0x08, 0x00, 0x06, 0x04, 0x00, 0x01] := by
  obtain ⟨sip, -, dip, -, rfl⟩ : ∃ sip, getip SIP SIP.length sj = some sip ∧ ∃ dip,
      getip ipadd ipadd.length dj = some dip ∧ eth' = storeFields eth (requestFields smac sip dip) := by
    simp only [initframe, Option.bind_eq_some_iff, Option.map_eq_some_iff] at h
    obtain ⟨sip, hs, dip, hd, rfl⟩ := h
    exact ⟨sip, hs, dip, hd, rfl⟩
  simp [sent, storeFields, requestFields, store_apply, packmac_broadcast, BROADCASTMAC,
    List.range_succ, hton, le16]
  -- what is left is `hton` on the constants
  decide

/-- The request for `10.0.0.1` from a zero source address. -/
theorem initframe_header_zero :
    ∃ eth', initframe (fun _ => 0) (cstr "10.0.0.1") (fun _ => 0) (fun _ => 0) (fun _ => 0) =
      some eth' ∧ (sent eth').take 22 = List.replicate 6 0xff ++ List.ofFn (fun _ : Fin 6 => (0 : UInt8)) ++
        [0x08, 0x06, 0x00, 0x01, 0x08, 0x00, 0x06, 0x04, 0x00, 0x01] := by
  obtain ⟨eth', h⟩ : ∃ eth', initframe (fun _ => 0) (cstr "10.0.0.1") (fun _ => 0) (fun _ => 0)
      (fun _ => 0) = some eth' := ⟨_, rfl⟩
  exact ⟨eth', h, initframe_header h⟩

/-- For the target `10.0.0.1`, whatever the stack held: `sendrequest` sends 46 bytes, the
two bytes before the target address are the stack's, the sender address reads `192.192.192.x`,
and the target address starts at byte 40 with `10.10.10`. -/
theorem arp_request_malformed (smac : Fin 6 → UInt8) (sj dj : Fin 4 → UInt32)
    (eth : Nat → UInt8) :
    ∃ eth', initframe smac (cstr "10.0.0.1") sj dj eth = some eth' ∧
      (sent eth').length = 46 ∧ eth' 38 = eth 38 ∧ eth' 39 = eth 39 ∧
      eth' 29 = 192 ∧ eth' 40 = 10 ∧ eth' 41 = 10 := by
  -- `getip` reads `10.` three times, as it reads `192.` for the sender
  have hdip : getip (cstr "10.0.0.1") (cstr "10.0.0.1").length dj =
      some ((dj 3 <<< 24) + ((10 : UInt32) <<< 16) + ((10 : UInt32) <<< 8) + 10) := by
    have hip : FirstField (cstr "10.0.0.1") (cstr "10") := ⟨by decide, by decide, by decide⟩
    rw [getip, show (cstr "10.0.0.1").length =
        (cstr "10").length + 1 + ((cstr "10").length + 1 + 2) from rfl,
      hip.loop_field (by decide), hip.loop_field (by decide), hip.loop_prefix (by decide)]
    simp [Getip.field, atoi, cstr, ch]
  refine ⟨_, by rw [initframe, getip_sip, hdip]; rfl, ?_⟩
  simp [sent, storeFields, requestFields, store_apply, le32_quad]

/-! ### What `parsereply` accepts -/

/-- `parseip`'s copy loop never ends. -/
theorem spin_eq_none (fuel : Nat) {j : Int} (hj : 0 ≤ j) : spin fuel j = none := by
  induction fuel with
  | zero => rfl
  | succ fuel ih => rw [spin, if_pos hj, Int.add_sub_cancel, ih]

/-- When `parseip`'s loop returns, every entry it met was zero and it wrote `0:` for each. -/
theorem parseipLoop_eq_some {fuel : Nat} {ipvals : Fin 4 → UInt32} :
    ∀ {is : List (Fin 4)} {ipstr s : List UInt8}, parseipLoop fuel ipvals is ipstr = some s →
      s = ipstr ++ is.flatMap fun _ => [ch '0', ch ':']
  | [], ipstr, s, h => by
    simp only [parseipLoop, Option.some.injEq] at h
    simp [h]
  | i :: is, ipstr, s, h => by
    unfold parseipLoop at h
    split at h
    · rw [parseipLoop_eq_some h]
      simp
    · -- a nonzero entry sends `parseip` into the copy loop, which does not return
      rw [spin_eq_none fuel (Int.natCast_nonneg _)] at h
      cases h

/-- `parseip` returns only with `0:0:0:0`, so never with `255.255.255.255`. -/
theorem parseip_eq_some {fuel : Nat} {ip : UInt32} {junk : Fin 4 → UInt32} {s : List UInt8}
    (h : parseip fuel ip junk = some s) : s = cstr "0:0:0:0" := by
  obtain ⟨s', hs', rfl⟩ := Option.map_eq_some_iff.mp h
  rw [parseipLoop_eq_some hs']
  decide

/-- `parsereply` never takes its accepting branch, whatever frame it is given. -/
theorem parsereply_never_accepts (fuel : Nat) (eth : Nat → UInt8) (junk : Fin 4 → UInt32)
    (mac : List UInt8) : parsereply fuel eth junk ≠ some (.accept mac) := by
  unfold parsereply
  split_ifs
  all_goals try simp
  intro dip hdip
  rw [parseip_eq_some hdip]
  simp [show strcmp (cstr "255.255.255.255") (cstr "0:0:0:0") ≠ 0 by decide]

/-- A frame from `initframe` made into the reply `parsereply` looks for: `OPER` set to
`hton(2)`, the target hardware address to `ff:ff:ff:ff:ff:ff` and the target protocol address
to `255.255.255.255`. -/
def asReply (eth : Nat → UInt8) : Nat → UInt8 :=
  storeFields eth [(.opercode, le16 (hton 2)), (.arpdmac, packmac BROADCASTMAC),
    (.dip, le32 0xffffffff)]

/-- A frame whose fields hold what `parsereply` compares them with, as the host reads them,
and whose `dip` is not zero. -/
def loopingReply : Nat → UInt8 :=
  storeFields (fun _ => 0) [(.ethtype, le16 0x0806), (.prottype, le16 0x0800), (.opercode, le16 2),
    (.arpdmac, packmac BROADCASTMAC), (.dip, le32 0xffffffff)]

/-- `parsereply` rejects as "Not an ARP packet" every reply made from a request `initframe`
builds, because it compares the EtherType as the host reads it with `0x0806`, which
`initframe` stored as `hton(0x0806)`; and on a frame that passes its tests it does not
return. -/
theorem parsereply_rejects_requests :
    (∀ (smac : Fin 6 → UInt8) (ipadd : List UInt8) (sj dj : Fin 4 → UInt32)
      (eth eth' : Nat → UInt8) (fuel : Nat) (junk : Fin 4 → UInt32),
      initframe smac ipadd sj dj eth = some eth' →
        parsereply fuel (asReply eth') junk = some .notArp) ∧
    ∀ fuel junk, parsereply fuel loopingReply junk = none := by
  constructor
  · intro smac ipadd sj dj eth eth' fuel junk h
    obtain ⟨sip, -, dip, -, rfl⟩ : ∃ sip, getip SIP SIP.length sj = some sip ∧ ∃ dip,
        getip ipadd ipadd.length dj = some dip ∧
          eth' = storeFields eth (requestFields smac sip dip) := by
      simp only [initframe, Option.bind_eq_some_iff, Option.map_eq_some_iff] at h
      obtain ⟨sip, hs, dip, hd, rfl⟩ := h
      exact ⟨sip, hs, dip, hd, rfl⟩
    have hether : load (asReply (storeFields eth (requestFields smac sip dip))) .ethtype = 0x0608 := by
      simp [load, asReply, LittleEndian.read, Field.size, storeFields, requestFields, store_apply]
      decide
    rw [parsereply, if_pos (by rw [hether]; decide)]
  · intro fuel junk
    have hip : parseip fuel (UInt32.ofNat (load loopingReply .dip)) junk = none := by
      simp [parseip, parseipLoop, spin_eq_none, show load loopingReply .dip = 0xffffffff by decide]
    rw [parsereply, if_neg (by decide), if_neg (by decide), if_neg (by decide), if_neg (by decide),
      hip, Option.map_none]

theorem parsereply_rejects_requests_zero :
    ∃ eth', initframe (fun _ => 0) (cstr "10.0.0.1") (fun _ => 0) (fun _ => 0) (fun _ => 0) =
      some eth' ∧ parsereply 1 (asReply eth') (fun _ => 0) = some .notArp := by
  obtain ⟨eth', h⟩ : ∃ eth', initframe (fun _ => 0) (cstr "10.0.0.1") (fun _ => 0) (fun _ => 0)
      (fun _ => 0) = some eth' := ⟨_, rfl⟩
  exact ⟨eth', h, parsereply_rejects_requests.1 _ _ _ _ _ _ 1 _ h⟩

/-! ### The dotted-quad codec -/

/-- `getip` reads `ip[j]`, `j` counting within the field, so it reads `1.2.3.4` as `1.1.1.1`
whatever `ipvals` held; and `parseip` of that address finds `ipvals[0] = 1` and does not
return. -/
theorem ip_codec_breaks :
    (∀ junk, getip (cstr "1.2.3.4") (cstr "1.2.3.4").length junk = some 0x01010101) ∧
      ∀ fuel junk, parseip fuel 0x04030201 junk = none := by
  refine ⟨fun junk => ?_, fun fuel junk => ?_⟩
  · have hip : FirstField (cstr "1.2.3.4") (cstr "1") := ⟨by decide, by decide, by decide⟩
    rw [getip, show (cstr "1.2.3.4").length = (cstr "1").length + 1 + ((cstr "1").length + 1 +
        ((cstr "1").length + 1 + 1)) from rfl,
      hip.loop_field (by decide), hip.loop_field (by decide), hip.loop_field (by decide),
      hip.loop_prefix (by decide)]
    simp [Getip.field, atoi, cstr, ch]
    -- what is left is the sum of the four fields
    decide
  · -- `ipvals[0] = ip && v` is 1, so the copy loop is entered
    simp [parseip, parseipLoop, spin_eq_none]

/-! ### The colon-hex codec -/

/-- The hex digits, the upper-case ones first. -/
def hexDigits : List UInt8 := cstr "0123456789ABCDEFabcdef"

/-- A hex digit in upper case. -/
def upcase (c : UInt8) : UInt8 := if ch 'a' ≤ c ∧ c ≤ ch 'f' then c - 32 else c

/-- Six pairs of digits from `digits`, separated by `:`. -/
def MacText (digits t : List UInt8) : Prop :=
  t.length = 17 ∧ ∀ j < 6, t.getD (3 * j) 0 ∈ digits ∧ t.getD (3 * j + 1) 0 ∈ digits ∧
    (j < 5 → t.getD (3 * j + 2) 0 = ch ':')

instance (digits : List UInt8) : DecidablePred (MacText digits) := fun t =>
  inferInstanceAs (Decidable (t.length = 17 ∧ ∀ j < 6, t.getD (3 * j) 0 ∈ digits ∧
    t.getD (3 * j + 1) 0 ∈ digits ∧ (j < 5 → t.getD (3 * j + 2) 0 = ch ':')))

/-- The digit `unpackmac` writes for the high nibble of `m`. -/
def hexHi (m : UInt8) : UInt8 := inttohex ((m.toUInt32 &&& 0xf0) >>> 4)

/-- The digit `unpackmac` writes for the low nibble of `m`. -/
def hexLo (m : UInt8) : UInt8 := inttohex (m.toUInt32 &&& 0x0f)

/-- A fact about every byte, from its check on the 256 values. -/
theorem forall_uint8 {P : UInt8 → Prop} (h : ∀ n < 256, P (UInt8.ofNat n)) (m : UInt8) : P m := by
  have := h m.toNat (UInt8.toNat_lt_size m)
  rwa [UInt8.ofNat_toNat] at this

/-- Both digits of a byte are upper-case hex digits, and `packmac`'s sum gives the byte back. -/
theorem hex_byte : ∀ m : UInt8, hexHi m ∈ hexDigits.take 16 ∧ hexLo m ∈ hexDigits.take 16 ∧
    ((hextoint (hexHi m) <<< 4) + hextoint (hexLo m)).toUInt8 = m :=
  forall_uint8 (by decide +kernel)

/-- The byte `packmac` assembles from two nibbles has them as its two digits. -/
theorem hex_nibbles : ∀ i < 16, ∀ j < 16,
    hexHi ((UInt32.ofNat i <<< 4) + UInt32.ofNat j).toUInt8 = inttohex (UInt32.ofNat i) ∧
      hexLo ((UInt32.ofNat i <<< 4) + UInt32.ofNat j).toUInt8 = inttohex (UInt32.ofNat j) := by
  decide +kernel

/-- A digit of either case is a nibble, which `inttohex` writes back upper-cased. -/
theorem hextoint_digit : ∀ a ∈ hexDigits,
    (hextoint a).toNat < 16 ∧ inttohex (hextoint a) = upcase a := by
  decide +kernel

/-- Two hex digits of either case come back from `packmac`'s byte upper-cased. -/
theorem hex_pair : ∀ a ∈ hexDigits, ∀ b ∈ hexDigits,
    hexHi ((hextoint a <<< 4) + hextoint b).toUInt8 = upcase a ∧
      hexLo ((hextoint a <<< 4) + hextoint b).toUInt8 = upcase b := by
  intro a ha b hb
  obtain ⟨hla, hua⟩ := hextoint_digit a ha
  obtain ⟨hlb, hub⟩ := hextoint_digit b hb
  have h := hex_nibbles _ hla _ hlb
  rw [UInt32.ofNat_toNat, UInt32.ofNat_toNat] at h
  exact ⟨h.1.trans hua, h.2.trans hub⟩

/-- `unpackmac` writes two digits and a `:` for each of the first six bytes. -/
theorem unpackmac_eq (l : List UInt8) : unpackmac l =
    [hexHi (l.getD 0 0), hexLo (l.getD 0 0), ch ':', hexHi (l.getD 1 0), hexLo (l.getD 1 0), ch ':',
      hexHi (l.getD 2 0), hexLo (l.getD 2 0), ch ':', hexHi (l.getD 3 0), hexLo (l.getD 3 0), ch ':',
      hexHi (l.getD 4 0), hexLo (l.getD 4 0), ch ':', hexHi (l.getD 5 0), hexLo (l.getD 5 0)] := by
  simp [unpackmac, List.range_succ, hexHi, hexLo]

theorem unpackmac_length (l : List UInt8) : (unpackmac l).length = 17 := by
  rw [unpackmac_eq]
  rfl

theorem getD_unpackmac (l : List UInt8) {j : Nat} (hj : j < 6) :
    (unpackmac l).getD (3 * j) 0 = hexHi (l.getD j 0) ∧
      (unpackmac l).getD (3 * j + 1) 0 = hexLo (l.getD j 0) ∧
      (j < 5 → (unpackmac l).getD (3 * j + 2) 0 = ch ':') := by
  rw [unpackmac_eq]
  obtain rfl | rfl | rfl | rfl | rfl | rfl : j = 0 ∨ j = 1 ∨ j = 2 ∨ j = 3 ∨ j = 4 ∨ j = 5 := by
    omega
  all_goals simp

theorem getD_packmac (t : List UInt8) {j : Nat} (hj : j < 6) :
    (packmac t).getD j 0 =
      ((hextoint (t.getD (3 * j) 0) <<< 4) + hextoint (t.getD (3 * j + 1) 0)).toUInt8 := by
  simp [packmac, List.getD_eq_getElem?_getD, hj]

theorem macText_unpackmac (l : List UInt8) : MacText (hexDigits.take 16) (unpackmac l) := by
  refine ⟨unpackmac_length l, fun j hj => ?_⟩
  obtain ⟨h0, h1, h2⟩ := getD_unpackmac l hj
  exact ⟨h0 ▸ (hex_byte _).1, h1 ▸ (hex_byte _).2.1, h2⟩

theorem packmac_unpackmac (mac : Fin 6 → UInt8) :
    packmac (unpackmac (List.ofFn mac)) = List.ofFn mac := by
  apply List.ext_getElem (by simp)
  intro j hj _
  have hj6 : j < 6 := by simpa using hj
  obtain ⟨h0, h1, -⟩ := getD_unpackmac (List.ofFn mac) hj6
  rw [List.getElem_eq_getD 0, List.getElem_eq_getD 0, getD_packmac _ hj6, h0, h1,
    (hex_byte _).2.2]

theorem unpackmac_packmac {t : List UInt8} (ht : MacText hexDigits t) :
    unpackmac (packmac t) = t.map upcase := by
  obtain ⟨hlen, hpairs⟩ := ht
  apply List.ext_getElem (by simp [unpackmac_length, hlen])
  intro i hi _
  rw [List.getElem_map, List.getElem_eq_getD 0, List.getElem_eq_getD 0]
  rw [unpackmac_length] at hi
  have hj : i / 3 < 6 := by omega
  obtain ⟨ha, hb, hc⟩ := hpairs (i / 3) hj
  obtain ⟨h0, h1, h2⟩ := getD_unpackmac (packmac t) hj
  obtain ⟨hhi, hlo⟩ := hex_pair _ ha _ hb
  rw [getD_packmac t hj] at h0 h1
  -- position `i` is digit `i % 3` of pair `i / 3`
  have hi3 : i = 3 * (i / 3) + i % 3 := by omega
  rcases (by omega : i % 3 = 0 ∨ i % 3 = 1 ∨ i % 3 = 2) with hr | hr | hr
  · rw [hi3, hr, Nat.add_zero, h0, hhi]
  · rw [hi3, hr, h1, hlo]
  · rw [hi3, hr, h2 (by omega), hc (by omega)]
    rfl

theorem mac_codec_round_trip :
    (∀ mac : Fin 6 → UInt8, MacText (hexDigits.take 16) (unpackmac (List.ofFn mac)) ∧
      packmac (unpackmac (List.ofFn mac)) = List.ofFn mac) ∧
    ∀ t, MacText hexDigits t → unpackmac (packmac t) = t.map upcase :=
  ⟨fun mac => ⟨macText_unpackmac _, packmac_unpackmac mac⟩, fun _ ht => unpackmac_packmac ht⟩

theorem mac_codec_round_trip_mixed :
    MacText hexDigits (cstr "0a:1B:2c:3D:4e:5F") ∧
      unpackmac (packmac (cstr "0a:1B:2c:3D:4e:5F")) = cstr "0A:1B:2C:3D:4E:5F" :=
  ⟨by decide, (mac_codec_round_trip.2 _ (by decide)).trans (by decide)⟩

/-! ### `sys_arp` -/

/-- `argptr(2, &arpresp, size)`'s test for the process size `sz`: `size` not negative, and
`resp` and `(uint)resp + size` not past `sz`. -/
def argptrOk (sz : Nat) (resp : UInt32) (size : Int) : Bool :=
  !(decide (size < 0) || decide (sz ≤ resp.toNat) || decide (sz < (resp.toNat + size.toNat) % 2 ^ 32))

/-- `sendrequest(interface, ipadd, arpresp)`, `arpresp` at `resp` in the user memory `mem`: -1
when no NIC is registered, otherwise the request is built and sent and, `blockuntilreply`
returning at once, `unpackmac` writes the `arpdmac` of the uninitialised `reply` as 17
characters and a NUL, and `arpresp[17] = '\0'`. `none` where `initframe` writes out of
bounds. -/
def sendrequest (nic : Option (Fin 6 → UInt8)) (ipadd : List UInt8) (sj dj : Fin 4 → UInt32)
    (frame reply : Nat → UInt8) (resp : Nat) (mem : Nat → UInt8) : Option (Int × (Nat → UInt8)) :=
  match nic with
  | none => some (-1, mem)
  | some mac => (initframe mac ipadd sj dj frame).map fun _ =>
      (0, store (store mem resp (unpackmac (bytes reply .arpdmac) ++ [0])) (resp + 17) [0])

/-- `sys_arp()` in a process of size `sz`, its string arguments fetched: `resp` and `size` are
the pointer and the length the user passed. -/
def sysArp (nic : Option (Fin 6 → UInt8)) (sz : Nat) (ipadd : List UInt8) (resp : UInt32)
    (size : Int) (sj dj : Fin 4 → UInt32) (frame reply mem : Nat → UInt8) :
    Option (Int × (Nat → UInt8)) :=
  if !argptrOk sz resp size then some (-1, mem)
  else (sendrequest nic ipadd sj dj frame reply resp.toNat mem).map fun (r, mem) =>
    (if r < 0 then -1 else 0, mem)

/-- With a NIC registered, whatever `size` `argptr` accepted, `sys_arp` returns 0 and has
written the byte at `resp + 17`, outside `[resp, resp + size)` when `size < 18`. -/
theorem sys_arp_writes_past_size (mac : Fin 6 → UInt8) (sz : Nat) (ipadd : List UInt8)
    (resp : UInt32) (size : Int) (sj dj : Fin 4 → UInt32) (frame reply mem : Nat → UInt8)
    (hok : argptrOk sz resp size = true) (hinit : (initframe mac ipadd sj dj frame).isSome = true)
    (hsmall : size < 18) :
    ∃ mem', sysArp (some mac) sz ipadd resp size sj dj frame reply mem = some (0, mem') ∧
      mem' (resp.toNat + 17) = 0 ∧ ¬ resp.toNat + 17 < resp.toNat + size.toNat := by
  obtain ⟨eth, heth⟩ := Option.isSome_iff_exists.mp hinit
  refine ⟨store (store mem resp.toNat (unpackmac (bytes reply .arpdmac) ++ [0])) (resp.toNat + 17) [0],
    ?_, ?_, by omega⟩
  · simp [sysArp, hok, sendrequest, heth]
  · simp [store_apply]

theorem sys_arp_writes_past_size_arptest :
    argptrOk 8192 4096 1 = true ∧
      (initframe (fun _ => 0) (cstr "192.168.2.1") (fun _ => 0) (fun _ => 0) (fun _ => 0)).isSome = true ∧
      (1 : Int) < 18 ∧
      ∃ mem', sysArp (some fun _ => 0) 8192 (cstr "192.168.2.1") 4096 1 (fun _ => 0) (fun _ => 0)
        (fun _ => 0) (fun _ => 0) (fun _ => 0xff) = some (0, mem') ∧
        mem' (4096 + 17) = 0 ∧ ¬ 4096 + 17 < 4096 + 1 :=
  ⟨by decide, by decide, by decide,
    sys_arp_writes_past_size _ _ _ _ _ _ _ _ _ _ (by decide) (by decide) (by decide)⟩

theorem bytes_arpdmac (m : Nat → UInt8) :
    bytes m .arpdmac = List.ofFn fun i : Fin 6 => m (Field.arpdmac.offset + i) := by
  apply List.ext_getElem (by simp [bytes, Field.size])
  intro i h₁ h₂
  simp only [bytes, List.getElem_map, List.getElem_range, List.getElem_ofFn]

/-- The 17 characters `sendrequest` stores at `resp`, read back. -/
theorem read_reply (mem : Nat → UInt8) (r : Nat) (l : List UInt8) (hl : l.length = 17) :
    (List.range 17).map (fun i => store (store mem r (l ++ [0])) (r + 17) [0] (r + i)) = l := by
  apply List.ext_getElem (by simp [hl])
  intro i h₁ h₂
  simp only [List.length_map, List.length_range] at h₁
  simp only [List.getElem_map, List.getElem_range, store_apply, List.length_append, List.length_singleton, hl]
  rw [if_neg (by omega), if_pos (by omega), Nat.add_sub_cancel_left,
    List.getD_eq_getElem?_getD, List.getElem?_append_left (by omega), List.getElem?_eq_getElem (by omega),
    Option.getD_some]

/-- `sys_arp` returns to the user, hex-encoded, the six bytes of kernel stack where the
uninitialised `resp.arpdmac` lies: `packmac` of the 17 characters at `arpresp` gives them back. -/
theorem sys_arp_leaks_stack (mac : Fin 6 → UInt8) (sz : Nat) (ipadd : List UInt8) (resp : UInt32)
    (size : Int) (sj dj : Fin 4 → UInt32) (frame reply mem : Nat → UInt8)
    (hok : argptrOk sz resp size = true) (hinit : (initframe mac ipadd sj dj frame).isSome = true) :
    ∃ mem', sysArp (some mac) sz ipadd resp size sj dj frame reply mem = some (0, mem') ∧
      packmac ((List.range 17).map fun i => mem' (resp.toNat + i)) = bytes reply .arpdmac := by
  obtain ⟨eth, heth⟩ := Option.isSome_iff_exists.mp hinit
  refine ⟨store (store mem resp.toNat (unpackmac (bytes reply .arpdmac) ++ [0])) (resp.toNat + 17) [0],
    by simp [sysArp, hok, sendrequest, heth], ?_⟩
  rw [read_reply _ _ _ (unpackmac_length _), bytes_arpdmac, packmac_unpackmac]

/-- Two calls with the same arguments, NIC and user memory, whose kernel stacks differ where
`resp.arpdmac` lies, leave different bytes in the user's buffer. -/
theorem sys_arp_two_stacks :
    argptrOk 8192 4096 18 = true ∧
      (initframe (fun _ => 0) (cstr "192.168.2.1") (fun _ => 0) (fun _ => 0) (fun _ => 0)).isSome = true ∧
      ∃ mem₁ mem₂,
        sysArp (some fun _ => 0) 8192 (cstr "192.168.2.1") 4096 18 (fun _ => 0) (fun _ => 0) (fun _ => 0)
          (fun _ => 0) (fun _ => 0) = some (0, mem₁) ∧
        sysArp (some fun _ => 0) 8192 (cstr "192.168.2.1") 4096 18 (fun _ => 0) (fun _ => 0) (fun _ => 0)
          (fun _ => 0xAB) (fun _ => 0) = some (0, mem₂) ∧
        (List.range 17).map (fun i => mem₁ (4096 + i)) ≠ (List.range 17).map (fun i => mem₂ (4096 + i)) := by
  have hok : argptrOk 8192 4096 18 = true := by decide
  have hinit : (initframe (fun _ => 0) (cstr "192.168.2.1") (fun _ => 0) (fun _ => 0) (fun _ => 0)).isSome =
      true := by decide
  obtain ⟨mem₁, h₁, hb₁⟩ := sys_arp_leaks_stack (fun _ => 0) 8192 (cstr "192.168.2.1") 4096 18 (fun _ => 0)
    (fun _ => 0) (fun _ => 0) (fun _ => 0) (fun _ => 0) hok hinit
  obtain ⟨mem₂, h₂, hb₂⟩ := sys_arp_leaks_stack (fun _ => 0) 8192 (cstr "192.168.2.1") 4096 18 (fun _ => 0)
    (fun _ => 0) (fun _ => 0) (fun _ => 0xAB) (fun _ => 0) hok hinit
  refine ⟨hok, hinit, mem₁, mem₂, h₁, h₂, fun heq => ?_⟩
  -- the user decodes the six stack bytes of each run, and they differ
  have hsame : bytes (fun _ => 0) .arpdmac = bytes (fun _ => 0xAB) .arpdmac :=
    hb₁.symm.trans ((congrArg packmac heq).trans hb₂)
  exact absurd hsame (by decide)

end Xv6.Arp
