import Velora.Dns.Chain

/-!
# How deep the key walk goes

`validatedKeys` calls itself for the signer that the DS answer of a zone names, and the upstream chooses that signer. A
recursive call is refused only for a zone that is on the path already. When every DS answer names an ancestor, the calls go up
the tree: there are no more of them than labels, and the walk ends by itself (`walk_bounded_iff`). Nothing in the walk checks
this, and an upstream that names a new zone each time keeps it going (`walk_endless`).
-/

namespace Velora.Dns

open Velora.Lib Velora.Lib.Text Velora.Wire

/-- `parent` is a proper ancestor of `zone`: its labels are the last labels of `zone`, and fewer. -/
def Above (parent zone : Str) : Prop :=
  isSubDomain parent zone = true ∧ (splitDomainName parent).length < (splitDomainName zone).length

instance (parent zone : Str) : Decidable (Above parent zone) := by unfold Above; infer_instance

/-- A call of `validatedKeys`: the zones on the path to it, its argument and the state of the upstream. -/
structure KeyCall (τ : Type) where
  visiting : List Str
  name : Str
  state : τ

section

variable {τ : Type}

/-- The zone a call is for. -/
def KeyCall.zone (c : KeyCall τ) : Str := canonicalName c.name

/-- The number of labels of the zone a call is for. -/
def KeyCall.labels (c : KeyCall τ) : ℕ := (splitDomainName c.zone).length

variable (anchors : Map Str (List (Typed DS))) (exchange : Exchange τ)

/-- The recursive call that a call makes, if it makes one: `validatedKeys` up to that point. -/
def KeyCall.next (c : KeyCall τ) : Option (KeyCall τ) :=
  if c.visiting.contains c.zone then none
  else
    match exchange (question c.zone typeDNSKEY) c.state with
    | (.error _, _) => none
    | (.ok keyResponse, s) =>
      if (dnskeys keyResponse.answer c.zone).isEmpty then none
      else if !(anchorsOf anchors c.zone).isEmpty then none
      else
        match exchange (question c.zone typeDS) s with
        | (.error _, _) => none
        | (.ok dsResponse, s) =>
          if responseSigner dsResponse == [] || equalFold (responseSigner dsResponse) c.zone then none
          else some ⟨c.zone :: c.visiting, responseSigner dsResponse, s⟩

/-- The call that is `n` levels below a call. -/
def KeyCall.descend : ℕ → KeyCall τ → Option (KeyCall τ)
  | 0, c => some c
  | n + 1, c => (c.next anchors exchange).bind (KeyCall.descend n)

variable (lib : Miekg) (now : ℕ)

/-- What a call returns when the deadline allows `walk` levels. -/
def KeyCall.result (walk : ℕ) (c : KeyCall τ) : Except Err (Option (List (Typed DNSKEY))) × τ :=
  validatedKeys lib anchors now exchange walk c.visiting c.name c.state

/-- **The walk below a call is bounded.** -/
structure KeyCall.Bounded (c : KeyCall τ) : Prop where
  /-- every recursive call is for a proper ancestor of the zone that makes it -/
  rises : ∀ n d d', KeyCall.descend anchors exchange n c = some d → d.next anchors exchange = some d' → Above d'.zone d.zone
  /-- the calls nested in it are no more than its labels, so that with it they are at most one more -/
  depth : ∀ n d, KeyCall.descend anchors exchange n c = some d → n ≤ c.labels
  /-- it returns by itself: with more levels than labels, the deadline does not matter -/
  ends : ∀ walk, c.labels < walk → c.result anchors exchange lib now walk = c.result anchors exchange lib now (c.labels + 1)

/-- **The DS answer of every zone is unsigned, signed by the zone itself, or signed by a proper ancestor of it.** The zones are
those that have keys and no anchor. -/
def Upward : Prop :=
  ∀ name s kr s₁ dr s₂, Asked exchange [] (canonicalName name) s kr s₁ →
    AskedDS anchors exchange (canonicalName name) s₁ dr s₂ → ¬ NoParent (canonicalName name) dr →
      Above (canonicalName (responseSigner dr)) (canonicalName name)

end

section

variable {τ : Type} {anchors : Map Str (List (Typed DS))} {exchange : Exchange τ} {lib : Miekg} {now : ℕ} {c c' : KeyCall τ}

/-! ### One call -/

theorem KeyCall.next_eq_some : c.next anchors exchange = some c' ↔ ∃ kr s₁ dr s₂,
    Asked exchange c.visiting c.zone c.state kr s₁ ∧ AskedDS anchors exchange c.zone s₁ dr s₂ ∧ ¬ NoParent c.zone dr ∧
      c' = ⟨c.zone :: c.visiting, responseSigner dr, s₂⟩ := by
  constructor
  · intro h
    unfold KeyCall.next at h
    split at h
    · cases h
    rename_i hfresh
    split at h
    · cases h
    rename_i kr s₁ hkr
    split at h
    · cases h
    rename_i hkeys
    split at h
    · cases h
    rename_i hanchor
    split at h
    · cases h
    rename_i dr s₂ hdr
    split at h
    · cases h
    rename_i hsigner
    exact ⟨kr, s₁, dr, s₂, ⟨by simpa using hfresh, hkr, by simpa using hkeys⟩, ⟨by simpa using hanchor, hdr⟩,
      fun hnp => hsigner (noParent_iff.2 hnp), (Option.some.inj h).symm⟩
  · rintro ⟨kr, s₁, dr, s₂, asked, ds, hup, rfl⟩
    unfold KeyCall.next
    rw [asked.fresh, if_neg Bool.false_ne_true, asked.keys]
    simp only [List.isEmpty_iff, asked.nonempty, ds.unanchored, ds.ds]
    rw [if_neg (fun h => hup (noParent_iff.1 h))]
    rfl

/-- A call without a recursive call returns the same whatever the deadline. -/
theorem KeyCall.result_of_none (h : c.next anchors exchange = none) (walk walk' : ℕ) :
    c.result anchors exchange lib now (walk + 1) = c.result anchors exchange lib now (walk' + 1) := by
  unfold KeyCall.next KeyCall.zone at h
  unfold KeyCall.result validatedKeys
  dsimp only at h ⊢
  split
  · rfl
  rename_i hfresh
  rw [if_neg hfresh] at h
  split
  · rfl
  rename_i kr s₁ hkr
  rw [hkr] at h
  dsimp only at h
  split
  · rfl
  rename_i hkeys
  rw [if_neg hkeys] at h
  split
  · rfl
  rename_i hanchor
  rw [if_neg hanchor] at h
  split
  · rfl
  rename_i dr s₂ hdr
  rw [hdr] at h
  dsimp only at h
  split
  · rfl
  rename_i hsigner
  rw [if_neg hsigner] at h
  cases h

/-- What a call goes on with when the recursive call for the keys above has returned. -/
def KeyCall.resume (lib : Miekg) (now : ℕ) (c : KeyCall τ) (kr dr : Msg) : Except Err (Option (List (Typed DNSKEY))) × τ →
    Except Err (Option (List (Typed DNSKEY))) × τ
  | (.error e, s) => (.error e, s)
  | (.ok none, s) => (.ok none, s)
  | (.ok (some parentKeys), s) =>
    match validateMessage lib (question c.zone typeDS) dr parentKeys now with
    | .error e => (.error (.validateDS c.zone e), s)
    | .ok _ =>
      if (dsRecords dr.answer c.zone).isEmpty then (.ok none, s)
      else (checkKeys lib now kr c.zone (dsRecords dr.answer c.zone), s)

/-- A call with a recursive call waits for it, fails when it fails, and goes on with what it returns. -/
theorem KeyCall.result_of_some (h : c.next anchors exchange = some c') :
    ∃ resume : Except Err (Option (List (Typed DNSKEY))) × τ → Except Err (Option (List (Typed DNSKEY))) × τ,
      (∀ e s, resume (.error e, s) = (.error e, s)) ∧
        ∀ walk, c.result anchors exchange lib now (walk + 1) = resume (c'.result anchors exchange lib now walk) := by
  obtain ⟨kr, s₁, dr, s₂, asked, ds, hup, rfl⟩ := KeyCall.next_eq_some.1 h
  exact ⟨c.resume lib now kr dr, fun e s => rfl, fun walk => validatedKeys_up asked ds hup⟩

/-! ### All calls -/

theorem KeyCall.descend_zero : KeyCall.descend anchors exchange 0 c = some c := rfl

theorem KeyCall.descend_succ {n : ℕ} {d : KeyCall τ} (h : KeyCall.descend anchors exchange (n + 1) c = some d) :
    ∃ c', c.next anchors exchange = some c' ∧ KeyCall.descend anchors exchange n c' = some d :=
  Option.bind_eq_some_iff.1 h

/-- When every recursive call rises, each level costs a label. -/
theorem KeyCall.depth_of_rises {n : ℕ} {d : KeyCall τ}
    (hrises : ∀ n d d', KeyCall.descend anchors exchange n c = some d → d.next anchors exchange = some d' →
      Above d'.zone d.zone)
    (h : KeyCall.descend anchors exchange n c = some d) : n + d.labels ≤ c.labels := by
  induction n generalizing c with
  | zero =>
    cases h
    omega
  | succ n ih =>
    obtain ⟨c', hnext, hrest⟩ := KeyCall.descend_succ h
    have hlt : c'.labels < c.labels := (hrises 0 c c' KeyCall.descend_zero hnext).2
    have hle := ih (fun m d d' hd => hrises (m + 1) d d' (by rw [KeyCall.descend, hnext]; exact hd)) hrest
    omega

/-- When every recursive call rises, the walk ends before it runs out of labels. -/
theorem KeyCall.ends_of_rises {labels : ℕ} (hlabels : c.labels = labels)
    (hrises : ∀ n d d', KeyCall.descend anchors exchange n c = some d → d.next anchors exchange = some d' →
      Above d'.zone d.zone)
    {walk : ℕ} (h : labels < walk) :
    c.result anchors exchange lib now walk = c.result anchors exchange lib now (labels + 1) := by
  induction labels using Nat.strong_induction_on generalizing c walk with
  | _ labels ih =>
    obtain ⟨walk, rfl⟩ : ∃ k, walk = k + 1 := ⟨walk - 1, by omega⟩
    cases hnext : c.next anchors exchange with
    | none => exact KeyCall.result_of_none hnext _ _
    | some c' =>
      have hlt : c'.labels < labels := hlabels ▸ (hrises 0 c c' KeyCall.descend_zero hnext).2
      have hbelow : ∀ n d d', KeyCall.descend anchors exchange n c' = some d → d.next anchors exchange = some d' →
          Above d'.zone d.zone :=
        fun m d d' hd => hrises (m + 1) d d' (by rw [KeyCall.descend, hnext]; exact hd)
      -- both deadlines leave the nested call more levels than it has labels
      obtain ⟨resume, -, hresume⟩ := @KeyCall.result_of_some τ anchors exchange lib now c c' hnext
      rw [hresume, hresume, ih c'.labels hlt rfl hbelow (by omega), ← ih c'.labels hlt rfl hbelow hlt]

theorem KeyCall.bounded_of_rises
    (hrises : ∀ n d d', KeyCall.descend anchors exchange n c = some d → d.next anchors exchange = some d' →
      Above d'.zone d.zone) :
    c.Bounded anchors exchange lib now where
  rises := hrises
  depth n d hd := by
    have hle := KeyCall.depth_of_rises hrises hd
    omega
  ends walk hwalk := KeyCall.ends_of_rises rfl hrises hwalk

/-- A call to which the upstream gives such answers rises. -/
theorem Upward.above (h : Upward anchors exchange) (hnext : c.next anchors exchange = some c') : Above c'.zone c.zone := by
  obtain ⟨kr, s₁, dr, s₂, asked, ds, hup, rfl⟩ := KeyCall.next_eq_some.1 hnext
  exact h c.name c.state kr s₁ dr s₂ ⟨rfl, asked.keys, asked.nonempty⟩ ds hup

end

/-- **The walk is bounded exactly when the upstream only names ancestors.** Every call of `Validate` starts with no zone on the
path. -/
theorem walk_bounded_iff {τ : Type} (lib : Miekg) (anchors : Map Str (List (Typed DS))) (now : ℕ) (exchange : Exchange τ) :
    (∀ name s, (⟨[], name, s⟩ : KeyCall τ).Bounded anchors exchange lib now) ↔ Upward anchors exchange := by
  constructor
  · intro h name s kr s₁ dr s₂ asked ds hup
    refine (h name s).rises 0 _ _ KeyCall.descend_zero (KeyCall.next_eq_some.2 ⟨kr, s₁, dr, s₂, asked, ds, hup, rfl⟩)
  · intro h name s
    exact KeyCall.bounded_of_rises fun n d d' _ hnext => h.above hnext

/-! ### An upstream that names a new zone each time -/

namespace Sample

/-- The names `0.`, `1.`, `2.` and so on. -/
def fresh (n : ℕ) : Str := decimal n ++ ['.']

/-- Every zone has a key, and the DS answers are signed by ever new zones. -/
def endless : Exchange ℕ := fun q n =>
  if q.question0.qtype = typeDNSKEY then
    (.ok { answer := [⟨⟨q.question0.name, classINET, 300⟩, .dnskey ⟨257, 3, 8, []⟩⟩] }, n)
  else
    (.ok { answer := [⟨⟨q.question0.name, classINET, 300⟩, .rrsig ⟨typeDS, 8, 1, 300, 1, 0, 7, fresh n, []⟩⟩] }, n + 1)

theorem isFqdn_fresh (n : ℕ) : isFqdn (fresh n) = true := by
  have hdigit : ∀ c ∈ (decimal n).reverse, c ≠ '\\' := by
    rintro c hc rfl
    exact notMem_decimal (by decide) n (List.mem_reverse.1 hc)
  rw [isFqdn, fresh, List.reverse_append]
  cases h : (decimal n).reverse with
  | nil => rfl
  | cons c cs =>
    have hc := hdigit c (by rw [h]; exact List.mem_cons_self)
    simp [hc]

theorem lower_fresh (n : ℕ) : lower (fresh n) = fresh n := by
  refine (List.map_congr_left fun c hc => ?_).trans (List.map_id _)
  rcases List.mem_append.1 hc with hc | hc
  · have hdigit := Nat.isDigit_of_mem_toDigits (b := 10) (by omega) (by omega) hc
    rw [Char.isDigit_iff_toNat] at hdigit
    have hlo : '0'.toNat = 48 := rfl
    have hhi : '9'.toNat = 57 := rfl
    exact lowerChar_of_toNat (by omega) (by omega)
  · rw [List.mem_singleton.1 hc]
    rfl

theorem canonicalName_fresh (n : ℕ) : canonicalName (fresh n) = fresh n := by
  rw [canonicalName, fqdn, if_pos (isFqdn_fresh n), lower_fresh]

theorem fresh_inj {m n : ℕ} (h : fresh m = fresh n) : m = n :=
  decimal_inj (List.append_cancel_right h)

/-- A call for a name that is not new goes on to the next new name. -/
theorem next_endless {visiting : List Str} {name : Str} {n : ℕ} (hname : canonicalName name = name)
    (hlower : lower name = name) (hold : name ≠ fresh n) (hpath : name ∉ visiting) :
    (⟨visiting, name, n⟩ : KeyCall ℕ).next ∅ endless = some ⟨name :: visiting, fresh n, n + 1⟩ := by
  have hzone : (⟨visiting, name, n⟩ : KeyCall ℕ).zone = name := hname
  have hsigner : ∀ hdr, responseSigner { answer := [⟨hdr, .rrsig ⟨typeDS, 8, 1, 300, 1, 0, 7, fresh n, []⟩⟩] } = fresh n :=
    fun _ => canonicalName_fresh n
  rw [KeyCall.next_eq_some, hzone]
  refine ⟨_, n, _, n + 1, ⟨?_, rfl, ?_⟩, ⟨rfl, rfl⟩, ?_, ?_⟩
  · simpa using hpath
  · simp [dnskeys, RR.dnskey?, question, setQuestion, Msg.setEdns0, Msg.question0, equalFold]
  · rw [NoParent, hsigner, equalFold_iff, lower_fresh, hlower]
    rintro (h | h)
    · simp [fresh] at h
    · exact hold h.symm
  · rw [hsigner]

/-- However deep the walk is, it goes one level deeper. -/
theorem descend_endless (m : ℕ) {visiting : List Str} {name : Str} {n : ℕ} (hname : canonicalName name = name)
    (hlower : lower name = name) (hold : ∀ k, n ≤ k → fresh k ∉ name :: visiting) (hpath : name ∉ visiting) :
    ∃ d, KeyCall.descend ∅ endless m ⟨visiting, name, n⟩ = some d := by
  induction m generalizing visiting name n with
  | zero => exact ⟨_, rfl⟩
  | succ m ih =>
    have hne : name ≠ fresh n := fun h => hold n le_rfl (by rw [h]; exact List.mem_cons_self)
    rw [KeyCall.descend, next_endless hname hlower hne hpath]
    refine ih (canonicalName_fresh n) (lower_fresh n) (fun k hk hmem => ?_) (hold n le_rfl)
    rcases List.mem_cons.1 hmem with h | h
    · have := fresh_inj h
      omega
    · exact hold k (by omega) h

end Sample

/-- A one-label zone whose walk has calls at every depth: the first is for `0.`, which is no ancestor of `z.`. -/
theorem walk_endless :
    (∀ n, ∃ d, KeyCall.descend ∅ Sample.endless n ⟨[], "z.".toList, 0⟩ = some d) ∧
      ¬ ∀ name s, (⟨[], name, s⟩ : KeyCall ℕ).Bounded ∅ Sample.endless (.ideal []) 0 := by
  have hdeep : ∀ n, ∃ d, KeyCall.descend ∅ Sample.endless n ⟨[], "z.".toList, 0⟩ = some d := by
    intro n
    refine Sample.descend_endless n (by decide) (by decide) (fun k _ hmem => ?_) (by simp)
    have hk : Sample.fresh k = "z.".toList := by simpa using hmem
    have hz : 'z' ∈ decimal k ++ ['.'] := by
      rw [← Sample.fresh, hk]
      decide
    rcases List.mem_append.1 hz with h | h
    · exact notMem_decimal (by decide) k h
    · revert h
      decide
  refine ⟨hdeep, fun hall => ?_⟩
  obtain ⟨d, hd⟩ := hdeep 2
  have hle := (hall "z.".toList 0).depth 2 d hd
  revert hle
  decide

end Velora.Dns
