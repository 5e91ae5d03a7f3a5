import Velora.Dns.Base

/-!
# Cookies

`internal/dns/edns.go`: the OPT record of a query is checked, and a client that sends a cookie is answered with one that
depends on its address. A client that sends back what it was answered with is let through, whatever it has sent before
and a complete cookie is accepted exactly where the server would make it (`cookies_settle`).
-/

namespace Velora.Dns

open Velora.Lib Velora.Lib.Text Velora.Wire

/-- HMAC-SHA256 of a key and a text. -/
structure Hmac where
  mac : List UInt8 → List UInt8 → List UInt8
  length : ∀ key text, (mac key text).length = 32

/-- The code of the option. -/
abbrev optCookie : UInt16 := 10

abbrev rcodeFormatError : ℕ := 1
abbrev rcodeBadVers : ℕ := 16
abbrev rcodeBadCookie : ℕ := 23

/-- The big-endian bytes of a number. -/
def bigEndian : ℕ → ℕ → List UInt8
  | 0, _ => []
  | n + 1, x => bigEndian n (x / 256) ++ [UInt8.ofNat x]

/-- `Addr.AsSlice`. -/
def Addr.asSlice : Addr → List UInt8
  | .v4 b => bigEndian 4 b.toNat
  | .v6 b _ => bigEndian 16 b.toNat

def serverCookieBytes : ℕ := 16

/-- `serverCookie`. -/
def serverCookie (h : Hmac) (secret : List UInt8) (client : Addr) (cookie : List UInt8) : List UInt8 :=
  (h.mac secret (client.unmap.asSlice ++ cookie)).take serverCookieBytes

/-- The options of an OPT record. -/
def optOptions (rr : RR) : Option (List (UInt16 × List UInt8)) := match rr.data with | .opt options => some options | _ => none

/-- The first loop of `clientEDNS`: the OPT record, if there is one only. -/
def findOPT : List RR → Option RR → Except ℕ (Option RR)
  | [], opt => .ok opt
  | rr :: rrs, opt =>
    if (optOptions rr).isNone then findOPT rrs opt
    else if opt.isSome ∨ rr.name ≠ root then .error rcodeFormatError
    else findOPT rrs (some rr)

/-- The second loop: the cookie, if there is one only. -/
def findCookie : List (UInt16 × List UInt8) → Option (List UInt8) → Except ℕ (Option (List UInt8))
  | [], cookie => .ok cookie
  | (code, value) :: options, cookie =>
    if code ≠ optCookie then findCookie options cookie
    else if cookie.isSome then .error rcodeFormatError
    else if value.length ≠ 8 ∧ (value.length < 16 ∨ value.length > 40) then .error rcodeFormatError
    else findCookie options (some value)

/-- `clientEDNS`: the cookie for the answer, and the response code. -/
def clientEDNS (h : Hmac) (q : Msg) (client : Addr) (secret : List UInt8) : Option (List UInt8) × ℕ :=
  match findOPT q.extra none with
  | .error rcode => (none, rcode)
  | .ok none => (none, rcodeSuccess)
  | .ok (some opt) =>
    if opt.optVersion ≠ 0 then (none, rcodeBadVers)
    else
      match findCookie ((optOptions opt).getD []) none with
      | .error rcode => (none, rcode)
      | .ok none => (none, rcodeSuccess)
      | .ok (some cookie) =>
        let expected := serverCookie h secret client (cookie.take 8)
        let response := cookie.take 8 ++ expected
        if cookie.length > 8 ∧ cookie.drop 8 ≠ expected then (some response, rcodeBadCookie)
        else (some response, rcodeSuccess)

/-- The OPT record with the cookie in place of those it has. -/
def withCookie (cookie : List UInt8) (rr : RR) : Option RR :=
  (optOptions rr).map (fun options => { rr with data := .opt (options.filter (fun o => o.1 ≠ optCookie) ++ [(optCookie, cookie)]) })

/-- `addResponseCookie`. -/
def addResponseCookie (m q : Msg) (cookie : Option (List UInt8)) : Msg :=
  match cookie with
  | none => m
  | some cookie =>
    let size := match q.isEdns0 with
      | some opt => opt.hdr.class'
      | none => 1232
    let m := if m.isEdns0.isSome then m else m.setEdns0 size false
    -- the last OPT record is changed in its place
    { m with extra := (m.extra.reverse.replaceF (withCookie cookie)).reverse }

/-! ### A client -/

/-- A cookie that may be sent: that of the client alone, or with that of a server. -/
abbrev Cookie := { c : List UInt8 // c.length = 8 ∨ 16 ≤ c.length ∧ c.length ≤ 40 }

/-- A query but for its cookie: a message without an OPT record, and the other options of the one it gets. -/
structure Asking where
  base : Msg
  plain : ∀ rr ∈ base.extra, optOptions rr = none
  size : UInt16
  dnssecOK : Bool
  before : List (UInt16 × List UInt8) := []
  after : List (UInt16 × List UInt8) := []
  noCookie : ∀ o ∈ before ++ after, o.1 ≠ optCookie

def Asking.query (a : Asking) (cookie : List UInt8) : Msg :=
  { a.base with
    extra := a.base.extra ++ [⟨⟨root, a.size, if a.dnssecOK then doBit else 0⟩, .opt (a.before ++ (optCookie, cookie) :: a.after)⟩] }

/-- The cookie in an answer. -/
def cookieOf (m : Msg) : Option (List UInt8) :=
  m.isEdns0.bind (fun opt => (((optOptions opt).getD []).find? (fun o => o.1 = optCookie)).map Prod.snd)

/-- A query and what the server would answer to it without its cookie, from an address of the client. -/
structure Round (client : Addr) where
  asking : Asking
  answer : Msg
  address : Addr
  same : address.unmap = client.unmap

/-- The response codes of `clientEDNS` for a client that sends, each time, the cookie it was given last. -/
def converse (h : Hmac) (secret : List UInt8) {client : Addr} (cookie : List UInt8) : List (Round client) → List ℕ
  | [] => []
  | r :: rounds =>
    let q := r.asking.query cookie
    let edns := clientEDNS h q r.address secret
    edns.2 :: converse h secret ((cookieOf (addResponseCookie r.answer q edns.1)).getD cookie) rounds

/-! ### What is read -/

theorem findOPT_plain {l l' : List RR} (h : ∀ rr ∈ l, optOptions rr = none) (opt : Option RR) :
    findOPT (l ++ l') opt = findOPT l' opt := by
  induction l with
  | nil => rfl
  | cons rr l ih =>
    rw [List.forall_mem_cons] at h
    rw [List.cons_append, findOPT, h.1, if_pos Option.isNone_none]
    exact ih h.2

theorem findCookie_others {l k : List (UInt16 × List UInt8)} (h : ∀ o ∈ l, o.1 ≠ optCookie) (cookie : Option (List UInt8)) :
    findCookie (l ++ k) cookie = findCookie k cookie := by
  induction l with
  | nil => rfl
  | cons o l ih =>
    rw [List.forall_mem_cons] at h
    rw [List.cons_append, findCookie, if_pos h.1]
    exact ih h.2

/-- **A query with a cookie.** -/
theorem clientEDNS_query (h : Hmac) (secret : List UInt8) (a : Asking) (c : Cookie) (client : Addr) :
    clientEDNS h (a.query c) client secret =
      (some (c.1.take 8 ++ serverCookie h secret client (c.1.take 8)),
        if c.1.length = 8 ∨ c.1.drop 8 = serverCookie h secret client (c.1.take 8) then rcodeSuccess else rcodeBadCookie) := by
  have hopt : findOPT (a.query c).extra none =
      .ok (some ⟨⟨root, a.size, if a.dnssecOK then doBit else 0⟩, .opt (a.before ++ (optCookie, c.1) :: a.after)⟩) := by
    rw [Asking.query, findOPT_plain a.plain]
    rfl
  have hversion : RR.optVersion ⟨⟨root, a.size, if a.dnssecOK then doBit else 0⟩,
      .opt (a.before ++ (optCookie, c.1) :: a.after)⟩ = 0 := by
    show ((if a.dnssecOK then doBit else 0) >>> 16) &&& 0xff = (0 : UInt32)
    cases a.dnssecOK <;> decide
  have hcookie : findCookie (a.before ++ (optCookie, c.1) :: a.after) none = .ok (some c.1) := by
    have hnone := List.forall_mem_append.1 a.noCookie
    have hafter := findCookie_others (k := []) hnone.2 (some c.1)
    rw [List.append_nil] at hafter
    rw [findCookie_others hnone.1, findCookie, if_neg (not_not.2 rfl), if_neg (by simp), if_neg (by have := c.2; omega), hafter]
    rfl
  unfold clientEDNS
  rw [hopt]
  dsimp only
  rw [if_neg (not_not.2 hversion)]
  show (match findCookie (a.before ++ (optCookie, c.1) :: a.after) none with
    | .error rcode => _
    | .ok none => _
    | .ok (some cookie) => _) = _
  rw [hcookie]
  dsimp only
  have hlen := c.2
  by_cases height : c.1.length = 8
  · rw [if_neg (by omega), if_pos (Or.inl height)]
  · by_cases hserver : c.1.drop 8 = serverCookie h secret client (c.1.take 8)
    · rw [if_neg (fun hp => hp.2 hserver), if_pos (Or.inr hserver)]
    · rw [if_pos ⟨by omega, hserver⟩, if_neg (fun hp => hp.elim height hserver)]

theorem serverCookie_length (h : Hmac) (secret : List UInt8) (client : Addr) (cookie : List UInt8) :
    (serverCookie h secret client cookie).length = 16 := by
  rw [serverCookie, List.length_take, h.length]
  rfl

theorem serverCookie_unmap (h : Hmac) (secret : List UInt8) {a b : Addr} (hab : a.unmap = b.unmap) (cookie : List UInt8) :
    serverCookie h secret a cookie = serverCookie h secret b cookie := by rw [serverCookie, serverCookie, hab]

/-! ### What is answered -/

/-- The first element that is replaced is the first that can be. -/
theorem find?_replaceF {α : Type} {p : α → Bool} {f : α → Option α} (hp : ∀ a, (f a).isSome = p a)
    (hf : ∀ a b, f a = some b → p b = true) (l : List α) : (l.replaceF f).find? p = (l.find? p).bind f := by
  induction l with
  | nil => rfl
  | cons a l ih =>
    have ha := hp a
    rw [List.replaceF]
    cases hfa : f a with
    | some b =>
      rw [hfa] at ha
      rw [List.find?_cons_of_pos (hf a b hfa), List.find?_cons_of_pos ha.symm]
      exact hfa.symm
    | none =>
      rw [hfa] at ha
      have hno : ¬ p a = true := by rw [← ha]; exact Bool.false_ne_true
      rw [List.find?_cons_of_neg hno, List.find?_cons_of_neg hno]
      exact ih

theorem withCookie_isSome (cookie : List UInt8) (rr : RR) : (withCookie cookie rr).isSome = (rr.rrtype == typeOPT) := by
  obtain ⟨hdr, data⟩ := rr
  cases data with
  | opt options => rfl
  | other t b =>
    have hne : t.code ≠ typeOPT := t.code_ne (by decide)
    simpa [withCookie, optOptions, RR.rrtype, RData.rrtype] using hne
  | _ => simp [withCookie, optOptions, RR.rrtype, RData.rrtype]; decide

/-- The OPT record after the change. -/
theorem isEdns0_withCookie (cookie : List UInt8) {m : Msg} {opt : RR} (hopt : m.isEdns0 = some opt) :
    ∃ options : List (UInt16 × List UInt8), Msg.isEdns0 { m with extra := (m.extra.reverse.replaceF (withCookie cookie)).reverse } =
      some { opt with data := .opt (options.filter (fun o => o.1 ≠ optCookie) ++ [(optCookie, cookie)]) } := by
  have hset : ∀ rr rr', withCookie cookie rr = some rr' → (rr'.rrtype == typeOPT) = true := by
    intro rr rr' hrr
    obtain ⟨options, -, rfl⟩ := Option.map_eq_some_iff.1 hrr
    rfl
  have hfind : Msg.isEdns0 { m with extra := (m.extra.reverse.replaceF (withCookie cookie)).reverse } = withCookie cookie opt := by
    rw [Msg.isEdns0, List.reverse_reverse, find?_replaceF (withCookie_isSome cookie) hset]
    exact congrArg (fun o => o.bind (withCookie cookie)) hopt
  have htype : (opt.rrtype == typeOPT) = true := List.find?_some (p := fun rr : RR => rr.rrtype == typeOPT) hopt
  obtain ⟨rr, hrr⟩ := Option.isSome_iff_exists.1 ((withCookie_isSome cookie opt).trans htype)
  obtain ⟨options, -, rfl⟩ := Option.map_eq_some_iff.1 hrr
  exact ⟨options, hfind.trans hrr⟩

theorem isEdns0_setEdns0 (m : Msg) (size : UInt16) (dnssecOK : Bool) : (m.setEdns0 size dnssecOK).isEdns0.isSome = true := by
  rw [Msg.isEdns0, Msg.setEdns0, List.reverse_append]
  rfl

/-- An answer that has an OPT record keeps one. -/
theorem isEdns0_addResponseCookie {m : Msg} (q : Msg) (cookie : Option (List UInt8)) (hm : m.isEdns0.isSome = true) :
    (addResponseCookie m q cookie).isEdns0.isSome = true := by
  cases cookie with
  | none => exact hm
  | some cookie =>
    obtain ⟨opt, hopt⟩ := Option.isSome_iff_exists.1 hm
    obtain ⟨options, hedns⟩ := isEdns0_withCookie cookie hopt
    unfold addResponseCookie
    dsimp only
    rw [if_pos hm, hedns]
    rfl

/-- **The cookie in an answer** is the one that was to be put there. -/
theorem cookieOf_addResponseCookie (m q : Msg) (cookie : List UInt8) :
    cookieOf (addResponseCookie m q (some cookie)) = some cookie := by
  have hgives : ∀ m : Msg, m.isEdns0.isSome = true →
      cookieOf { m with extra := (m.extra.reverse.replaceF (withCookie cookie)).reverse } = some cookie := by
    intro m hm
    obtain ⟨opt, hopt⟩ := Option.isSome_iff_exists.1 hm
    obtain ⟨options, hedns⟩ := isEdns0_withCookie cookie hopt
    have hnone : (options.filter (fun o => o.1 ≠ optCookie)).find? (fun o => o.1 = optCookie) = none := by
      rw [List.find?_eq_none]
      intro o ho
      simpa using (List.mem_filter.1 ho).2
    rw [cookieOf, hedns]
    show (((options.filter (fun o => o.1 ≠ optCookie) ++ [(optCookie, cookie)]).find? (fun o => o.1 = optCookie)).map Prod.snd) = _
    rw [List.find?_append, hnone]
    rfl
  unfold addResponseCookie
  dsimp only
  refine hgives _ ?_
  split
  · assumption
  · exact isEdns0_setEdns0 m _ false

theorem findOPT_error {rrs : List RR} {found : Option RR} {rcode : ℕ} (h : findOPT rrs found = .error rcode) :
    rcode = rcodeFormatError := by
  induction rrs generalizing found with
  | nil => cases h
  | cons rr rrs ih =>
    rw [findOPT] at h
    split at h
    · exact ih h
    · split at h
      · exact (Except.error.inj h).symm
      · exact ih h

theorem findOPT_some {rrs : List RR} {found : Option RR} {opt : RR} (h : findOPT rrs found = .ok (some opt)) :
    found = some opt ∨ ∃ rr ∈ rrs, (optOptions rr).isSome = true := by
  induction rrs generalizing found with
  | nil => exact Or.inl (Except.ok.inj h)
  | cons rr rrs ih =>
    rw [findOPT] at h
    split at h
    · exact (ih h).imp_right fun ⟨r, hr, hsome⟩ => ⟨r, List.mem_cons_of_mem rr hr, hsome⟩
    · rename_i hsome
      exact Or.inr ⟨rr, List.mem_cons_self, Option.isSome_iff_ne_none.2 (by simpa using hsome)⟩

/-- A refusal with a code that only an OPT record can carry is one of a query that has an OPT record. -/
theorem clientEDNS_rcode (h : Hmac) (q : Msg) (client : Addr) (secret : List UInt8) :
    (clientEDNS h q client secret).2 ≤ 15 ∨ q.isEdns0.isSome = true := by
  unfold clientEDNS
  cases hfind : findOPT q.extra none with
  | error rcode =>
    rw [findOPT_error hfind]
    exact Or.inl (show rcodeFormatError ≤ 15 by decide)
  | ok found =>
    cases found with
    | none => exact Or.inl (show rcodeSuccess ≤ 15 by decide)
    | some opt =>
      rcases findOPT_some hfind with hnone | ⟨rr, hrr, hsome⟩
      · cases hnone
      · have htype : (rr.rrtype == typeOPT) = true := by
          rw [← withCookie_isSome [] rr, withCookie, Option.isSome_map, hsome]
        exact Or.inr (List.find?_isSome.2 ⟨rr, List.mem_reverse.2 hrr, htype⟩)

/-- **Cookies.** A complete cookie is accepted exactly if it is the one the server makes for the client, and after the first
answer a client that sends what it was given is never refused. -/
theorem cookies_settle (h : Hmac) (secret : List UInt8) (client : Addr) (c : Cookie) (r : Round client)
    (rounds : List (Round client)) : converse h secret c.1 (r :: rounds) =
      (if c.1.length = 8 ∨ c.1.drop 8 = serverCookie h secret client (c.1.take 8) then rcodeSuccess else rcodeBadCookie) ::
        List.replicate rounds.length rcodeSuccess := by
  induction rounds generalizing c r with
  | nil =>
    rw [converse, clientEDNS_query, serverCookie_unmap h secret r.same]
    rfl
  | cons r' rounds ih =>
    -- the cookie of the first answer is the one the server makes for the client
    have hlen : (c.1.take 8).length = 8 := by
      rw [List.length_take]
      have := c.2
      omega
    let server := serverCookie h secret client (c.1.take 8)
    have hserver : server.length = 16 := serverCookie_length h secret client (c.1.take 8)
    have hnext : (c.1.take 8 ++ server).length = 24 := by rw [List.length_append, hlen, hserver]
    have htake : (c.1.take 8 ++ server).take 8 = c.1.take 8 := List.take_left' hlen
    have hdrop : (c.1.take 8 ++ server).drop 8 = server := List.drop_left' hlen
    have hrest := ih ⟨c.1.take 8 ++ server, Or.inr (by omega)⟩ r'
    rw [converse, clientEDNS_query, serverCookie_unmap h secret r.same, cookieOf_addResponseCookie, Option.getD_some, hrest]
    dsimp only
    rw [htake, hdrop, if_pos (Or.inr rfl : _ ∨ server = server)]
    rfl

end Velora.Dns
