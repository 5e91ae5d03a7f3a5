import Mathlib.Data.Finmap
import Velora.Dhcp.Net
import Velora.Lib.Bytes

/-!
# DHCP packets

The format of a packet: a header of fixed width, the magic cookie and the options. The options are a map, which is written in
any order, each with its length in one byte. What is written is read back unless an option is longer than that (`options_iff`),
which in a reply only the list of DNS servers can be (`reply_read_back_iff`).
-/

namespace Velora.Dhcp

open Velora.Lib Velora.Lib.Text Velora.Lib.Ip

/-! ### The format -/

/-- The options of a packet. -/
abbrev Options := Finmap (fun _ : UInt8 => List UInt8)

/-- An order in which the entries of a map come, each with its code. -/
abbrev Order := List (Σ _ : UInt8, List UInt8)

/-- The order is one of this map. -/
def Order.Of (order : Order) (o : Options) : Prop := (order : Multiset (Σ _ : UInt8, List UInt8)) = o.entries

def magicCookie : List UInt8 := [99, 130, 83, 99]

/-- `Packet`; an address that is not set is empty. -/
structure Message where
  opCode : UInt8
  hType : UInt8
  hLen : UInt8
  hops : UInt8 := 0
  xid : UInt32
  secs : UInt16 := 0
  flags : UInt16 := 0
  ciAddr : List UInt8 := []
  yiAddr : List UInt8 := []
  siAddr : List UInt8 := []
  giAddr : List UInt8 := []
  chAddr : List UInt8
  sName : List UInt8 := []
  file : List UInt8 := []
  options : Options
  relayAddr : List UInt8 := []

def truncated (code : UInt8) : Str := "dhcp option ".toList ++ decimal code.toNat ++ " truncated".toList

/-- `parseOptions`: the loop over what is left, with the options that have been read. -/
def parseOptions (data : List UInt8) (opts : Options) : Except Str Options :=
  match data with
  | [] => .ok opts
  | code :: rest =>
    if code = 255 then .ok opts
    else if code = 0 then parseOptions rest opts
    else
      match rest with
      | [] => .error (truncated code)
      | length :: rest =>
        if rest.length < length.toNat then .error (truncated code)
        else parseOptions (rest.drop length.toNat) (opts.insert code (rest.take length.toNat))
termination_by data.length
decreasing_by all_goals simp; try omega

/-- `marshalOptions`, in the order in which the map comes. -/
def marshalOptions (order : Order) : List UInt8 :=
  if order = [] then [255]
  else order.flatMap (fun e => e.1 :: UInt8.ofNat e.2.length :: e.2) ++ [255]

/-- `ParsePacket`. -/
def parsePacket (data : List UInt8) : Except Str Message :=
  if data.length < 236 + 4 then
    .error ("dhcp packet too short: ".toList ++ decimal data.length ++ " bytes".toList)
  else if 16 < data.getD 2 0 then
    .error ("dhcp hardware address length ".toList ++ decimal (data.getD 2 0).toNat ++ " exceeds 16".toList)
  else if slice data 236 (236 + 4) ≠ magicCookie then .error "dhcp magic cookie missing".toList
  else
    (parseOptions (data.drop (236 + 4)) ∅).map (fun options => {
      opCode := data.getD 0 0
      hType := data.getD 1 0
      hLen := data.getD 2 0
      hops := data.getD 3 0
      xid := UInt32.ofNat (value (slice data 4 8))
      secs := UInt16.ofNat (value (slice data 8 10))
      flags := UInt16.ofNat (value (slice data 10 12))
      ciAddr := slice data 12 16
      yiAddr := slice data 16 20
      siAddr := slice data 20 24
      giAddr := slice data 24 28
      chAddr := slice data 28 (28 + (data.getD 2 0).toNat)
      sName := (slice data 44 108).takeWhile (· ≠ 0)
      file := (slice data 108 236).takeWhile (· ≠ 0)
      options
      relayAddr := slice data 24 28 })

/-- What `copy` leaves of an address in the four bytes for it. -/
def onWire (ip : List UInt8) : List UInt8 := (to4 ip).getD [0, 0, 0, 0]

namespace Message

/-- The header, field by field; the names of the server and of the file are not written. -/
def header (p : Message) : List (List UInt8) :=
  [[p.opCode, p.hType, UInt8.ofNat (min p.chAddr.length 16), p.hops], bigEndian 4 p.xid.toNat, bigEndian 2 p.secs.toNat,
    bigEndian 2 p.flags.toNat, onWire p.ciAddr, onWire p.yiAddr, onWire p.siAddr, onWire p.giAddr,
    p.chAddr.take 16 ++ List.replicate (16 - min p.chAddr.length 16) 0, List.replicate 64 0, List.replicate 128 0, magicCookie]

/-- `Marshal`, with the options in an order of their map. -/
def marshal (p : Message) (order : Order) : List UInt8 :=
  let buf := p.header.flatten ++ marshalOptions order
  buf ++ List.replicate (300 - buf.length) 0

/-- `SetOption`. -/
def setOption (p : Message) (code : UInt8) (value : List UInt8) : Message :=
  { p with options := p.options.insert code value }

end Message

/-! ### Replies -/

/-- `OptionUint32`. -/
def optionUint32 (v : UInt32) : List UInt8 := bigEndian 4 v.toNat

/-- The bytes of `To4`, none for an address that has no such form. -/
def as4 (ip : List UInt8) : List UInt8 := (to4 ip).getD []

/-- `MakeNak`. -/
def makeNak (request : Message) (serverIP : List UInt8) : Message :=
  let p : Message := {
    opCode := 2
    hType := request.hType
    hLen := request.hLen
    xid := request.xid
    ciAddr := request.ciAddr
    chAddr := request.chAddr
    siAddr := serverIP
    options := ∅ }
  (p.setOption 53 [6]).setOption 54 (as4 serverIP)

/-- `buildResponse`. -/
def buildResponse (request : Message) (msgType : UInt8) (yiAddr : List UInt8) (leaseSec : UInt32)
    (serverIP subnet gateway : List UInt8) (dnsServers : List (List UInt8)) : Message :=
  let p : Message := {
    opCode := 2
    hType := request.hType
    hLen := request.hLen
    xid := request.xid
    chAddr := request.chAddr
    siAddr := serverIP
    options := ((∅ : Options).insert 1 (as4 subnet) |>.insert 3 (as4 gateway) |>.insert 54 (as4 serverIP)) }
  let p := p.setOption 53 [msgType]
  let p := { p with yiAddr }
  let p :=
    if 0 < leaseSec then
      let leaseBytes := [(leaseSec >>> 24).toUInt8, (leaseSec >>> 16).toUInt8, (leaseSec >>> 8).toUInt8, leaseSec.toUInt8]
      ((p.setOption 51 leaseBytes).setOption 58 (optionUint32 (leaseSec / 2))).setOption 59 (optionUint32 (leaseSec / 8 * 7))
    else p
  if dnsServers = [] then p else p.setOption 6 (dnsServers.flatMap as4)

/-- `MakeOffer`. -/
def makeOffer (discover : Message) (offeredIP : List UInt8) (leaseSec : UInt32) (serverIP subnet gateway : List UInt8)
    (dnsServers : List (List UInt8)) : Message :=
  buildResponse discover 2 offeredIP leaseSec serverIP subnet gateway dnsServers

/-- `MakeAck`. -/
def makeAck (request : Message) (ackIP : List UInt8) (leaseSec : UInt32) (serverIP subnet gateway : List UInt8)
    (dnsServers : List (List UInt8)) : Message :=
  buildResponse request 5 ackIP leaseSec serverIP subnet gateway dnsServers

/-! ### What is read back -/

/-- The address that was read is the one that was written; one that is not set is written as 0.0.0.0. -/
def SameAddr (written read : List UInt8) : Prop := equalIP read (if written = [] then [0, 0, 0, 0] else written) = true

/-- What has been read is the packet that was written. -/
structure Message.Same (p q : Message) : Prop where
  opCode : q.opCode = p.opCode
  hType : q.hType = p.hType
  hLen : q.hLen = p.hLen
  chAddr : q.chAddr = p.chAddr
  xid : q.xid = p.xid
  ciAddr : SameAddr p.ciAddr q.ciAddr
  yiAddr : SameAddr p.yiAddr q.yiAddr
  siAddr : SameAddr p.siAddr q.siAddr
  giAddr : SameAddr p.giAddr q.giAddr
  relayAddr : SameAddr p.relayAddr q.relayAddr
  options : q.options = p.options

/-- The packet is read back when its options are written in this order. -/
def Message.ReadBack (p : Message) (order : Order) : Prop := ∃ q, parsePacket (p.marshal order) = .ok q ∧ p.Same q

/-- The codes of options: none of them is a pad or the end. -/
def Options.Coded (o : Options) : Prop := ∀ code v, o.lookup code = some v → code ≠ 0 ∧ code ≠ 255

/-- Every option has its length in one byte. -/
def Options.Fit (o : Options) : Prop := ∀ code v, o.lookup code = some v → v.length ≤ 255

/-! ### Options -/

theorem parseOptions_end (rest : List UInt8) (o : Options) : parseOptions (255 :: rest) o = .ok o := by
  rw [parseOptions.eq_def]
  exact if_pos rfl

theorem parseOptions_entry {code : UInt8} {v : List UInt8} (hpad : code ≠ 0) (hend : code ≠ 255) (hv : v.length ≤ 255)
    (rest : List UInt8) (o : Options) :
    parseOptions (code :: UInt8.ofNat v.length :: (v ++ rest)) o = parseOptions rest (o.insert code v) := by
  have hlen : (UInt8.ofNat v.length).toNat = v.length := by
    rw [UInt8.toNat_ofNat']
    omega
  rw [parseOptions.eq_def]
  simp only [if_neg hend, if_neg hpad, hlen]
  rw [if_neg (by rw [List.length_append]; omega), List.drop_left, List.take_left]

/-- **The options are read in the order in which they were written.** -/
theorem parseOptions_order {order : Order} (h : ∀ e ∈ order, (e.1 ≠ 0 ∧ e.1 ≠ 255) ∧ e.2.length ≤ 255) (rest : List UInt8)
    (o : Options) : parseOptions (order.flatMap (fun e => e.1 :: UInt8.ofNat e.2.length :: e.2) ++ 255 :: rest) o =
      .ok (order.foldl (fun o e => o.insert e.1 e.2) o) := by
  induction order generalizing o with
  | nil => exact parseOptions_end rest o
  | cons e order ih =>
    rw [List.forall_mem_cons] at h
    obtain ⟨⟨⟨hpad, hend⟩, hv⟩, horder⟩ := h
    rw [List.flatMap_cons, List.append_assoc, List.cons_append, List.cons_append, parseOptions_entry hpad hend hv, ih horder,
      List.foldl_cons]

theorem lookup_foldl {order : Order} (h : order.NodupKeys) (o : Options) (code : UInt8) :
    (order.foldl (fun o e => o.insert e.1 e.2) o).lookup code = (order.dlookup code).or (o.lookup code) := by
  induction order generalizing o with
  | nil => simp
  | cons e order ih =>
    obtain ⟨c, v⟩ := e
    rw [List.nodupKeys_cons] at h
    rw [List.foldl_cons, ih h.2]
    by_cases hc : code = c
    · subst hc
      rw [List.dlookup_eq_none.2 h.1, List.dlookup_cons_eq, Finmap.lookup_insert]
      rfl
    · rw [List.dlookup_cons_ne _ _ hc, Finmap.lookup_insert_of_ne _ hc]

section

variable {order : Order} {o : Options} (horder : order.Of o)

include horder

theorem Order.Of.nodupKeys : order.NodupKeys := by
  have hnodup := o.nodupKeys
  rw [← horder] at hnodup
  exact Multiset.coe_nodupKeys.1 hnodup

theorem Order.Of.lookup (code : UInt8) : o.lookup code = order.dlookup code := by
  have heq : o = (⟨order, horder.nodupKeys⟩ : AList (fun _ : UInt8 => List UInt8)).toFinmap := Finmap.ext horder.symm
  rw [heq]
  rfl

theorem Order.Of.mem_iff {code : UInt8} {v : List UInt8} : ⟨code, v⟩ ∈ order ↔ o.lookup code = some v := by
  rw [horder.lookup, ← Option.mem_def, List.mem_dlookup_iff horder.nodupKeys]

/-- **The map of what was written is the map.** -/
theorem Order.Of.foldl : order.foldl (fun o e => o.insert e.1 e.2) ∅ = o := by
  refine Finmap.ext_lookup fun code => ?_
  rw [lookup_foldl horder.nodupKeys, horder.lookup, Finmap.lookup_empty, Option.or_none]

end

/-- No option that has been read is longer than a byte can say. -/
theorem parseOptions_fit {data : List UInt8} {opts o : Options} (h : Options.Fit opts) (hread : parseOptions data opts = .ok o) :
    Options.Fit o := by
  fun_induction parseOptions data opts with
  | case1 | case2 =>
    cases hread
    exact h
  | case3 opts rest hend ih => exact ih h hread
  | case4 | case5 => cases hread
  | case6 opts code hend hpad length rest hlen ih =>
    refine ih (fun c v hv => ?_) hread
    by_cases hc : c = code
    · subst hc
      rw [Finmap.lookup_insert, Option.some.injEq] at hv
      rw [← hv, List.length_take]
      have hbyte := length.toNat_lt
      omega
    · rw [Finmap.lookup_insert_of_ne _ hc] at hv
      exact h c v hv

theorem marshalOptions_eq (order : Order) : marshalOptions order =
    order.flatMap (fun e => e.1 :: UInt8.ofNat e.2.length :: e.2) ++ [255] := by
  unfold marshalOptions
  split
  · rename_i hnil
    rw [hnil]
    rfl
  · rfl

/-- **Options and their bytes.** Options that are no pads and no ends are read back from whatever order they are written in,
whatever follows them, exactly when each of them has its length in one byte. -/
theorem options_iff {order : Order} {o : Options} (horder : order.Of o) (hcoded : Options.Coded o) (rest : List UInt8) :
    parseOptions (marshalOptions order ++ rest) ∅ = .ok o ↔ Options.Fit o := by
  constructor
  · refine parseOptions_fit fun code v hv => ?_
    rw [Finmap.lookup_empty] at hv
    cases hv
  · intro hfit
    have hall : ∀ e ∈ order, (e.1 ≠ 0 ∧ e.1 ≠ 255) ∧ e.2.length ≤ 255 := by
      rintro ⟨code, v⟩ he
      have hv := horder.mem_iff.1 he
      exact ⟨hcoded code v hv, hfit code v hv⟩
    rw [marshalOptions_eq, List.append_assoc, List.singleton_append, parseOptions_order hall, horder.foldl]

/-! ### Packets -/

theorem value_bigEndian (n v : ℕ) : value (bigEndian n v) = v % 256 ^ n := foldl_bigEndian n v

theorem length_onWire (ip : List UInt8) : (onWire ip).length = 4 := by
  rw [onWire]
  cases h : to4 ip with
  | none => rfl
  | some b => exact length_to4 h

namespace Message

variable (p : Message)

/-- The widths of the fields of the header. -/
theorem header_widths : p.header.map List.length = [4, 4, 2, 2, 4, 4, 4, 4, 16, 64, 128, 4] := by
  simp only [header, List.map_cons, List.map_nil, length_bigEndian, length_onWire, List.length_append, List.length_take,
    List.length_replicate, List.length_cons, List.length_nil, magicCookie]
  congr 8
  rw [Nat.min_comm]
  congr 1
  omega

/-- A field of the header in the bytes of a packet. -/
theorem slice_header (tail : List UInt8) {k i j : ℕ} {f : List UInt8} (hf : p.header[k]? = some f)
    (hi : ([4, 4, 2, 2, 4, 4, 4, 4, 16, 64, 128, 4].take k).sum = i) (hj : j = i + f.length) :
    slice (p.header.flatten ++ tail) i j = f := by
  refine slice_fields tail hf ?_ hj
  rw [List.map_take, header_widths]
  exact hi

/-- The hardware address stands in front of its padding. -/
theorem slice_chAddr (tail : List UInt8) :
    slice (p.header.flatten ++ tail) 28 (28 + min p.chAddr.length 16) = p.chAddr.take 16 := by
  have hpadded : slice (p.header.flatten ++ tail) 28 44 =
      p.chAddr.take 16 ++ List.replicate (16 - min p.chAddr.length 16) 0 := by
    refine p.slice_header tail (rfl : p.header[8]? = some _) rfl ?_
    rw [List.length_append, List.length_take, List.length_replicate]
    omega
  have hcut : slice (p.header.flatten ++ tail) 28 (28 + min p.chAddr.length 16) =
      (slice (p.header.flatten ++ tail) 28 44).take (min p.chAddr.length 16) := by
    rw [slice, slice, List.take_take, Nat.add_sub_cancel_left]
    congr 1
    omega
  rw [hcut, hpadded, List.take_left' (by rw [List.length_take, Nat.min_comm])]

/-- **A packet and its bytes.** -/
theorem parsePacket_header (tail : List UInt8) :
    parsePacket (p.header.flatten ++ tail) = (parseOptions tail ∅).map (fun options => {
      opCode := p.opCode
      hType := p.hType
      hLen := UInt8.ofNat (min p.chAddr.length 16)
      hops := p.hops
      xid := p.xid
      secs := p.secs
      flags := p.flags
      ciAddr := onWire p.ciAddr
      yiAddr := onWire p.yiAddr
      siAddr := onWire p.siAddr
      giAddr := onWire p.giAddr
      chAddr := p.chAddr.take 16
      options
      relayAddr := onWire p.giAddr }) := by
  have hsum : (p.header.map List.length).sum = 240 := by rw [header_widths]; rfl
  have hlen : ¬ (p.header.flatten ++ tail).length < 236 + 4 := by
    rw [List.length_append, List.length_flatten, hsum]
    omega
  have hdrop : (p.header.flatten ++ tail).drop (236 + 4) = tail := drop_fields p.header tail hsum
  have hfield : ∀ {k i j : ℕ} {f : List UInt8}, p.header[k]? = some f →
      ([4, 4, 2, 2, 4, 4, 4, 4, 16, 64, 128, 4].take k).sum = i → j = i + f.length →
      slice (p.header.flatten ++ tail) i j = f := p.slice_header tail
  have hfirst : ∀ k, k < 4 → (p.header.flatten ++ tail).getD k 0 =
      [p.opCode, p.hType, UInt8.ofNat (min p.chAddr.length 16), p.hops].getD k 0 := by
    intro k hk
    interval_cases k <;> rfl
  have hch := p.slice_chAddr tail
  generalize p.header.flatten ++ tail = data at hlen hdrop hfield hfirst hch
  have hop : data.getD 0 0 = p.opCode := hfirst 0 (by decide)
  have htype : data.getD 1 0 = p.hType := hfirst 1 (by decide)
  have hhlen : data.getD 2 0 = UInt8.ofNat (min p.chAddr.length 16) := hfirst 2 (by decide)
  have hhops : data.getD 3 0 = p.hops := hfirst 3 (by decide)
  have hnat : (UInt8.ofNat (min p.chAddr.length 16)).toNat = min p.chAddr.length 16 := by
    rw [UInt8.toNat_ofNat']
    omega
  have hshort : ¬ 16 < UInt8.ofNat (min p.chAddr.length 16) := by
    rw [UInt8.lt_iff_toNat_lt, hnat]
    have h16 : (16 : UInt8).toNat = 16 := rfl
    omega
  have hcookie : slice data 236 (236 + 4) = magicCookie := hfield (rfl : p.header[11]? = some _) rfl rfl
  have hxid : slice data 4 8 = bigEndian 4 p.xid.toNat := hfield (rfl : p.header[1]? = some _) rfl (by rw [length_bigEndian])
  have hsecs : slice data 8 10 = bigEndian 2 p.secs.toNat := hfield (rfl : p.header[2]? = some _) rfl (by rw [length_bigEndian])
  have hflags : slice data 10 12 = bigEndian 2 p.flags.toNat :=
    hfield (rfl : p.header[3]? = some _) rfl (by rw [length_bigEndian])
  have hci : slice data 12 16 = onWire p.ciAddr := hfield (rfl : p.header[4]? = some _) rfl (by rw [length_onWire])
  have hyi : slice data 16 20 = onWire p.yiAddr := hfield (rfl : p.header[5]? = some _) rfl (by rw [length_onWire])
  have hsi : slice data 20 24 = onWire p.siAddr := hfield (rfl : p.header[6]? = some _) rfl (by rw [length_onWire])
  have hgi : slice data 24 28 = onWire p.giAddr := hfield (rfl : p.header[7]? = some _) rfl (by rw [length_onWire])
  have hsName : slice data 44 108 = List.replicate 64 0 := hfield (rfl : p.header[9]? = some _) rfl rfl
  have hfile : slice data 108 236 = List.replicate 128 0 := hfield (rfl : p.header[10]? = some _) rfl rfl
  have hxidNat : p.xid.toNat % 256 ^ 4 = p.xid.toNat := Nat.mod_eq_of_lt p.xid.toNat_lt
  have hsecsNat : p.secs.toNat % 256 ^ 2 = p.secs.toNat := Nat.mod_eq_of_lt p.secs.toNat_lt
  have hflagsNat : p.flags.toNat % 256 ^ 2 = p.flags.toNat := Nat.mod_eq_of_lt p.flags.toNat_lt
  rw [parsePacket, if_neg hlen, hhlen, if_neg hshort, if_neg (not_not.2 hcookie), hdrop, hnat, hop, htype, hhops, hxid, hsecs,
    hflags, hci, hyi, hsi, hgi, hch, hsName, hfile, value_bigEndian, value_bigEndian, value_bigEndian, hxidNat, hsecsNat,
    hflagsNat, UInt32.ofNat_toNat, UInt16.ofNat_toNat, UInt16.ofNat_toNat]
  rfl

end Message

/-- An IPv4 address, or none. -/
def Four (ip : List UInt8) : Prop := ip = [] ∨ (to4 ip).isSome

theorem sameAddr_iff (ip : List UInt8) : SameAddr ip (onWire ip) ↔ Four ip := by
  unfold SameAddr Four equalIP onWire
  cases h : to4 ip with
  | some b =>
    have hne : ip ≠ [] := by
      rintro rfl
      cases h
    have hb : to4 b = some b := if_pos (length_to4 h)
    simp [hne, h, hb]
  | none =>
    have hzero : to4 [0, 0, 0, 0] = some [0, 0, 0, 0] := rfl
    by_cases hnil : ip = []
    · simp [hnil, hzero]
    · have hne : [0, 0, 0, 0] ≠ ip := by
        rintro rfl
        cases h
      simp [hnil, h, hzero, hne]

/-- **When a packet is read back.** Its addresses have to be of the four bytes they are given, and its options have to have
their lengths in a byte. -/
theorem Message.readBack_iff {p : Message} {order : Order} (horder : order.Of p.options) (hcoded : p.options.Coded)
    (hshort : p.chAddr.length ≤ 16) (hlen : p.hLen = UInt8.ofNat p.chAddr.length) (hrelay : p.relayAddr = p.giAddr) :
    p.ReadBack order ↔ (Four p.ciAddr ∧ Four p.yiAddr ∧ Four p.siAddr ∧ Four p.giAddr) ∧ p.options.Fit := by
  have htake : p.chAddr.take 16 = p.chAddr := List.take_of_length_le hshort
  simp only [ReadBack, marshal, List.append_assoc, parsePacket_header, Nat.min_eq_left hshort, htake, ← hlen]
  set data := marshalOptions order ++ _ with hdata
  have hread : parseOptions data ∅ = .ok p.options ↔ p.options.Fit := options_iff horder hcoded _
  simp only [← sameAddr_iff]
  constructor
  · rintro ⟨q, hq, hsame⟩
    cases ho : parseOptions data ∅ with
    | error e =>
      rw [ho] at hq
      cases hq
    | ok o =>
      rw [ho] at hq
      cases hq
      refine ⟨⟨hsame.ciAddr, hsame.yiAddr, hsame.siAddr, hsame.giAddr⟩, hread.1 ?_⟩
      rw [ho, ← hsame.options]
  · rintro ⟨⟨hci, hyi, hsi, hgi⟩, hfit⟩
    rw [hread.2 hfit]
    exact ⟨_, rfl, ⟨rfl, rfl, rfl, rfl, rfl, hci, hyi, hsi, hgi, by rw [hrelay]; exact hgi, rfl⟩⟩

/-- What holds of a packet that has been read. -/
theorem parsePacket_addr {data : List UInt8} {p : Message} (h : parsePacket data = .ok p) :
    p.chAddr.length ≤ 16 ∧ p.hLen = UInt8.ofNat p.chAddr.length ∧ Four p.ciAddr := by
  unfold parsePacket at h
  split_ifs at h with hdata h16 hcookie
  cases ho : parseOptions (data.drop (236 + 4)) ∅ with
  | error e =>
    rw [ho] at h
    cases h
  | ok o =>
    rw [ho] at h
    cases h
    have hle : (data.getD 2 0).toNat ≤ 16 := by
      rw [UInt8.lt_iff_toNat_lt, not_lt] at h16
      exact h16
    have hch : (slice data 28 (28 + (data.getD 2 0).toNat)).length = (data.getD 2 0).toNat := by
      rw [slice, List.length_take, List.length_drop]
      omega
    have hci : (slice data 12 16).length = 4 := by
      rw [slice, List.length_take, List.length_drop]
      omega
    refine ⟨hch.trans_le hle, ?_, Or.inr ?_⟩
    · rw [hch, UInt8.ofNat_toNat]
    · rw [to4, if_pos hci]
      rfl

/-! ### The options of a reply -/

/-- Options that can be written. -/
def Options.Sound (o : Options) : Prop := o.Coded ∧ o.Fit

theorem sound_empty : Options.Sound ∅ := by
  constructor
  all_goals
    intro code v hv
    rw [Finmap.lookup_empty] at hv
    cases hv

section

variable {o : Options} (code : UInt8)

theorem Options.Coded.insert (h : o.Coded) (hcode : code ≠ 0 ∧ code ≠ 255) (v : List UInt8) : Options.Coded (o.insert code v) := by
  intro c w hw
  by_cases hc : c = code
  · exact hc ▸ hcode
  · rw [Finmap.lookup_insert_of_ne _ hc] at hw
    exact h c w hw

theorem Options.Fit.insert_iff (h : o.Fit) (v : List UInt8) : Options.Fit (o.insert code v) ↔ v.length ≤ 255 := by
  constructor
  · intro hfit
    exact hfit code v (Finmap.lookup_insert _)
  · intro hv c w hw
    by_cases hc : c = code
    · subst hc
      rw [Finmap.lookup_insert, Option.some.injEq] at hw
      exact hw ▸ hv
    · rw [Finmap.lookup_insert_of_ne _ hc] at hw
      exact h c w hw

theorem Options.Sound.insert (h : o.Sound) (hcode : code ≠ 0 ∧ code ≠ 255) {v : List UInt8} (hv : v.length ≤ 255) :
    Options.Sound (o.insert code v) := ⟨h.1.insert code hcode v, (h.2.insert_iff code v).2 hv⟩

end

theorem length_as4 (ip : List UInt8) : (as4 ip).length ≤ 255 := by
  rw [as4]
  cases h : to4 ip with
  | none => exact Nat.zero_le _
  | some b => exact (length_to4 h).trans_le (by decide)

theorem length_optionUint32 (v : UInt32) : (optionUint32 v).length ≤ 255 := (length_bigEndian 4 v.toNat).trans_le (by decide)

/-- The list of DNS servers has the four bytes of those with an IPv4 form. -/
theorem length_dns (dnsServers : List (List UInt8)) :
    (dnsServers.flatMap as4).length = 4 * (dnsServers.filterMap to4).length := by
  induction dnsServers with
  | nil => rfl
  | cons dns dnsServers ih =>
    rw [List.flatMap_cons, List.length_append, ih, as4]
    cases h : to4 dns with
    | none =>
      rw [List.filterMap_cons_none h]
      exact Nat.zero_add _
    | some b =>
      rw [List.filterMap_cons_some h, List.length_cons, Option.getD_some, length_to4 h]
      omega

/-! ### Replies are read back -/

/-- A reply with these addresses and options. -/
def reply (request : Message) (ciAddr yiAddr serverIP : List UInt8) (options : Options) : Message where
  opCode := 2
  hType := request.hType
  hLen := request.hLen
  xid := request.xid
  ciAddr
  yiAddr
  siAddr := serverIP
  chAddr := request.chAddr
  options

theorem makeNak_eq (request : Message) (serverIP : List UInt8) : ∃ o : Options, o.Sound ∧
    makeNak request serverIP = reply request request.ciAddr [] serverIP o := by
  have htype : Options.Sound ((∅ : Options).insert 53 [6]) := sound_empty.insert 53 (by decide) (by decide)
  exact ⟨_, htype.insert 54 (by decide) (length_as4 serverIP), rfl⟩

/-- Of the options of a reply only the list of DNS servers can be longer than a byte says. -/
theorem buildResponse_eq (request : Message) (msgType : UInt8) (yiAddr : List UInt8) (leaseSec : UInt32)
    (serverIP subnet gateway : List UInt8) (dnsServers : List (List UInt8)) :
    ∃ o : Options, o.Coded ∧ (o.Fit ↔ (dnsServers.filterMap to4).length < 64) ∧
      buildResponse request msgType yiAddr leaseSec serverIP subnet gateway dnsServers = reply request [] yiAddr serverIP o := by
  -- the options but for the DNS servers
  have hlease : ∃ o : Options, o.Sound ∧ ∀ dnsServers, buildResponse request msgType yiAddr leaseSec serverIP subnet gateway
      dnsServers = reply request [] yiAddr serverIP (if dnsServers = [] then o else o.insert 6 (dnsServers.flatMap as4)) := by
    have hsubnet : Options.Sound ((∅ : Options).insert 1 (as4 subnet)) := sound_empty.insert 1 (by decide) (length_as4 subnet)
    have hgateway := hsubnet.insert 3 (by decide) (length_as4 gateway)
    have hserver := hgateway.insert 54 (by decide) (length_as4 serverIP)
    have htype := hserver.insert 53 (v := [msgType]) (by decide) (show 1 ≤ 255 by decide)
    unfold buildResponse
    by_cases h : 0 < leaseSec
    · simp only [if_pos h]
      have hbytes := htype.insert 51 (v := [(leaseSec >>> 24).toUInt8, (leaseSec >>> 16).toUInt8, (leaseSec >>> 8).toUInt8,
        leaseSec.toUInt8]) (by decide) (show 4 ≤ 255 by decide)
      have hrenew := hbytes.insert 58 (by decide) (length_optionUint32 (leaseSec / 2))
      have hrebind := hrenew.insert 59 (by decide) (length_optionUint32 (leaseSec / 8 * 7))
      refine ⟨_, hrebind, fun dnsServers => ?_⟩
      split <;> rfl
    · simp only [if_neg h]
      refine ⟨_, htype, fun dnsServers => ?_⟩
      split <;> rfl
  obtain ⟨o, hsound, heq⟩ := hlease
  refine ⟨_, ?_, ?_, heq dnsServers⟩
  · split_ifs
    · exact hsound.1
    · exact hsound.1.insert 6 (by decide) _
  · split_ifs with hdns
    · simp [hdns, hsound.2]
    · rw [hsound.2.insert_iff, length_dns]
      omega

/-- **When a reply is read back**, in terms of its addresses and its options. -/
theorem reply_readBack {data : List UInt8} {request : Message} (hrequest : parsePacket data = .ok request)
    {ciAddr yiAddr serverIP : List UInt8} (hci : Four ciAddr) {o : Options} {order : Order} (horder : order.Of o)
    (hcoded : o.Coded) : (reply request ciAddr yiAddr serverIP o).ReadBack order ↔ Four yiAddr ∧ Four serverIP ∧ o.Fit := by
  obtain ⟨hshort, hlen, -⟩ := parsePacket_addr hrequest
  rw [Message.readBack_iff (p := reply request ciAddr yiAddr serverIP o) horder hcoded hshort hlen rfl]
  have hgi : Four [] := Or.inl rfl
  simp [reply, hci, hgi, and_assoc]

/-- **DHCP replies on the wire.** Whatever the order in which its options are written, a reply to a packet that has been
read is read back as it is exactly when the addresses in its header are IPv4 addresses (or not set) and fewer than 64 of
the DNS servers have an IPv4 form; a refusal, which names no DNS servers, when the address of the server is one. Options
with codes of their own and values of at most 255 bytes are always read back. -/
theorem reply_read_back_iff {data : List UInt8} {request : Message} (hrequest : parsePacket data = .ok request) (leaseSec : UInt32)
    (ip serverIP subnet gateway : List UInt8) (dnsServers : List (List UInt8)) :
    (∀ order, order.Of (makeOffer request ip leaseSec serverIP subnet gateway dnsServers).options →
      ((makeOffer request ip leaseSec serverIP subnet gateway dnsServers).ReadBack order ↔
        Four ip ∧ Four serverIP ∧ (dnsServers.filterMap to4).length < 64)) ∧
    (∀ order, order.Of (makeAck request ip leaseSec serverIP subnet gateway dnsServers).options →
      ((makeAck request ip leaseSec serverIP subnet gateway dnsServers).ReadBack order ↔
        Four ip ∧ Four serverIP ∧ (dnsServers.filterMap to4).length < 64)) ∧
    (∀ order, order.Of (makeNak request serverIP).options → ((makeNak request serverIP).ReadBack order ↔ Four serverIP)) ∧
    ∀ (o : Options) (order : Order) (rest : List UInt8), order.Of o → o.Coded → o.Fit →
      parseOptions (marshalOptions order ++ rest) ∅ = .ok o := by
  obtain ⟨-, -, hci⟩ := parsePacket_addr hrequest
  have hnil : Four [] := Or.inl rfl
  have hresponse : ∀ msgType order, order.Of
      (buildResponse request msgType ip leaseSec serverIP subnet gateway dnsServers).options →
      ((buildResponse request msgType ip leaseSec serverIP subnet gateway dnsServers).ReadBack order ↔
        Four ip ∧ Four serverIP ∧ (dnsServers.filterMap to4).length < 64) := by
    intro msgType order
    obtain ⟨o, hcoded, hfit, heq⟩ := buildResponse_eq request msgType ip leaseSec serverIP subnet gateway dnsServers
    rw [heq, ← hfit]
    exact fun horder => reply_readBack hrequest hnil horder hcoded
  refine ⟨hresponse 2, hresponse 5, ?_, ?_⟩
  · obtain ⟨o, ⟨hcoded, hfit⟩, heq⟩ := makeNak_eq request serverIP
    intro order
    rw [heq]
    intro horder
    rw [reply_readBack (o := o) hrequest hci horder hcoded]
    simp [hnil, hfit]
  · intro o order rest horder hcoded hfit
    exact (options_iff horder hcoded rest).2 hfit

/-- A packet of a client that looks for an address. -/
def laptop : Message where
  opCode := 1
  hType := 1
  hLen := 6
  xid := 42
  chAddr := [0x02, 0, 0x5E, 0x10, 0, 0x0A]
  options := ∅

theorem laptop_read : laptop.ReadBack [] := by
  have hnil : Four [] := Or.inl rfl
  exact (Message.readBack_iff (p := laptop) rfl sound_empty.1 (by decide) rfl rfl).2
    ⟨⟨hnil, hnil, hnil, hnil⟩, sound_empty.2⟩

/-- The offer of an address of a pool with two DNS servers is read back. -/
theorem laptop_offer : ∃ request, parsePacket (laptop.marshal []) = .ok request ∧
    ∀ order, order.Of (makeOffer request [192, 168, 1, 20] 3600 [192, 168, 1, 1] [255, 255, 255, 0] [192, 168, 1, 1]
      [[9, 9, 9, 9], [1, 1, 1, 1]]).options →
    (makeOffer request [192, 168, 1, 20] 3600 [192, 168, 1, 1] [255, 255, 255, 0] [192, 168, 1, 1]
      [[9, 9, 9, 9], [1, 1, 1, 1]]).ReadBack order := by
  obtain ⟨request, hrequest, -⟩ := laptop_read
  have hfour : ∀ a b c d : UInt8, Four [a, b, c, d] := fun _ _ _ _ => Or.inr rfl
  refine ⟨request, hrequest, fun order horder => ?_⟩
  exact ((reply_read_back_iff hrequest 3600 [192, 168, 1, 20] [192, 168, 1, 1] [255, 255, 255, 0] [192, 168, 1, 1]
    [[9, 9, 9, 9], [1, 1, 1, 1]]).1 order horder).2 ⟨hfour _ _ _ _, hfour _ _ _ _, by decide⟩

/-- That of a pool with 64 of them is not, in no order of its options. -/
theorem crowded_offer : ∃ request, parsePacket (laptop.marshal []) = .ok request ∧
    ∀ order, order.Of (makeOffer request [192, 168, 1, 20] 3600 [192, 168, 1, 1] [255, 255, 255, 0] [192, 168, 1, 1]
      (List.replicate 64 [1, 1, 1, 1])).options →
    ¬ (makeOffer request [192, 168, 1, 20] 3600 [192, 168, 1, 1] [255, 255, 255, 0] [192, 168, 1, 1]
      (List.replicate 64 [1, 1, 1, 1])).ReadBack order := by
  obtain ⟨request, hrequest, -⟩ := laptop_read
  obtain ⟨o, hcoded, hfit, heq⟩ := buildResponse_eq request 2 [192, 168, 1, 20] 3600 [192, 168, 1, 1] [255, 255, 255, 0]
    [192, 168, 1, 1] (List.replicate 64 [1, 1, 1, 1])
  refine ⟨request, hrequest, fun order horder => ?_⟩
  rw [makeOffer, heq] at horder ⊢
  rw [reply_readBack (o := o) hrequest (Or.inl rfl) horder hcoded, hfit]
  rintro ⟨-, -, hfew⟩
  exact absurd hfew (by decide)

end Velora.Dhcp
