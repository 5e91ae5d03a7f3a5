import Velora.Forwarding.Router

/-!
# What a forwarder returns

A forwarder changes the world only by asking the network: the two histories grow and nothing is taken back (`Grows`).
What it returns was heard from the network, passed the checks, and is the response of one attempt restored for the query
(`resolve_ok`). If it carries the AD bit, `Validate` returned secure on that response.
-/

namespace Velora.Dns

open Velora.Lib Velora.Lib.Text Velora.Wire

section

variable {σ : Type}

/-! ### The histories only grow -/

/-- Nothing was handed to an upstream, and the history of validations has grown at most. -/
structure World.Grows (w w' : World σ) : Prop where
  asked : w'.asked = w.asked
  secured : w.secured <:+ w'.secured

namespace World.Grows

theorem refl (w : World σ) : w.Grows w := ⟨rfl, List.suffix_rfl⟩

theorem trans {w₁ w₂ w₃ : World σ} (h₁ : w₁.Grows w₂) (h₂ : w₂.Grows w₃) : w₁.Grows w₃ :=
  ⟨h₂.asked.trans h₁.asked, h₁.secured.trans h₂.secured⟩

/-- The network may do anything. -/
theorem net (w : World σ) (net : σ) : w.Grows { w with net := net } := ⟨rfl, List.suffix_rfl⟩

end World.Grows

end

/-! ### Validation and its exchange -/

section

variable {τ : Type} {R : τ → τ → Prop} (hrefl : ∀ s, R s s) (htrans : ∀ {a b c}, R a b → R b c → R a c) (lib : Miekg)
  (anchors : Map Str (List (Typed DS))) (now : ℕ) {exchange : Exchange τ} (hex : ∀ q s, R s (exchange q s).2)

include hrefl htrans hex

/-- The key walk changes the state only through its exchange. -/
theorem validatedKeys_state : ∀ (walk : ℕ) (visiting : List Str) (name : Str) (s : τ),
    R s (validatedKeys lib anchors now exchange walk visiting name s).2
  | 0, _, _, s => hrefl s
  | walk + 1, visiting, name, s => by
    rw [validatedKeys]
    dsimp only
    split
    · exact hrefl s
    · have h1 := hex (question (canonicalName name) typeDNSKEY) s
      rcases hk : exchange (question (canonicalName name) typeDNSKEY) s with ⟨e | keyResponse, s₁⟩ <;> rw [hk] at h1
      · exact h1
      dsimp only
      split
      · exact h1
      split
      · exact h1
      have h2 := htrans h1 (hex (question (canonicalName name) typeDS) s₁)
      rcases hd : exchange (question (canonicalName name) typeDS) s₁ with ⟨e | dsResponse, s₂⟩ <;> rw [hd] at h2
      · exact h2
      dsimp only
      split
      · exact h2
      -- the walk goes on at the parent
      have h3 := htrans h2 (validatedKeys_state walk (canonicalName name :: visiting) (responseSigner dsResponse) s₂)
      rcases hw : validatedKeys lib anchors now exchange walk (canonicalName name :: visiting)
        (responseSigner dsResponse) s₂ with ⟨e | _ | keys, s₃⟩ <;> rw [hw] at h3
      · exact h3
      · exact h3
      dsimp only
      split
      · exact h3
      · split <;> exact h3

theorem validate_state (walk : ℕ) (q response : Msg) (s : τ) :
    R s (validate lib anchors now exchange walk q response s).2 := by
  have hkeys := validatedKeys_state hrefl htrans lib anchors now hex walk [] (responseSigner response) s
  unfold validate
  split
  · exact hrefl s
  dsimp only
  split
  · exact hrefl s
  rcases hk : validatedKeys lib anchors now exchange walk [] (responseSigner response) s with ⟨e | _ | keys, s₁⟩ <;>
    rw [hk] at hkeys
  · exact hkeys
  · exact hkeys
  dsimp only
  split <;> exact hkeys

end

/-! ### Attempts -/

section

variable {σ : Type} {lib : Miekg} {env : Env σ} {f : Forwarder σ} {check : Validation σ} {ctx : Ctx σ} {q : Msg}

/-- The network has given this message for an answer. -/
def Heard (env : Env σ) (m : Msg) : Prop := ∃ proto address req s, (env.exchange proto address req s).1 = .ok m

theorem sendTwice_heard {first again : Proto} {address : Str} {req m : Msg} {s : σ}
    (h : (sendTwice env first again address req s).1 = .ok m) : Heard env m := by
  unfold sendTwice at h
  rcases hx : env.exchange first address req s with ⟨e | m₁, s₁⟩ <;> rw [hx] at h
  · cases h
  · dsimp only at h
    split at h
    · exact ⟨_, _, _, _, h⟩
    · cases h
      exact ⟨first, address, req, s, by rw [hx]⟩

theorem send_heard {upstream : Str} {req m : Msg} {s : σ} (h : (send env upstream req s).1 = .ok (.ok m)) :
    Heard env m := by
  unfold send at h
  split at h
  · exact ⟨_, _, _, _, by simpa using h⟩
  split at h
  · split at h
    · cases h
    · exact sendTwice_heard (by simpa using h)
  · exact sendTwice_heard (by simpa using h)

variable (lib env f check q) in
/-- What may be said of an attempt, or of several, from the world `w`: the histories grow, and an answer was heard, passed
the checks and was validated. -/
def Answers (w : World σ) (upstream : Str) (m : Msg) (w' : World σ) : Prop :=
  ∃ m₁ w₁ w₂, Heard env m₁ ∧ checkResponse lib q m₁ = .ok () ∧ w.Grows w₁ ∧ check upstream m₁ w₁ = (.ok m, w₂) ∧
    w₂.Grows w'

theorem Answers.mono {v w w' w'' : World σ} {upstream : Str} {m : Msg} (h : Answers lib env check q w upstream m w')
    (hv : v.Grows w) (hw : w'.Grows w'') : Answers lib env check q v upstream m w'' := by
  obtain ⟨m₁, w₁, w₂, h1, h2, h3, h4, h5⟩ := h
  exact ⟨m₁, w₁, w₂, h1, h2, hv.trans h3, h4, h5.trans hw⟩

theorem attempt_spec (hcheck : ∀ up m w, World.Grows w (check up m w).2) (upstream : Str) (w : World σ) :
    w.Grows (attempt lib env f check upstream q w).2 ∧
      ∀ m, (attempt lib env f check upstream q w).1 = .answered m →
        Answers lib env check q w upstream m (attempt lib env f check upstream q w).2 := by
  unfold attempt
  rcases env.id w.net with ⟨id, net⟩
  dsimp only
  rcases hs : send env upstream (request f id q) net with ⟨e | e | m₁, net₁⟩
  · exact ⟨World.Grows.net w net₁, by simp⟩
  · exact ⟨World.Grows.net w net₁, by simp⟩
  dsimp only
  cases hr : checkResponse lib q m₁ with
  | error e => exact ⟨World.Grows.net w net₁, by simp⟩
  | ok u =>
    have hgrow := (World.Grows.net w net₁).trans (hcheck upstream m₁ { w with net := net₁ })
    have hheard : Heard env m₁ := send_heard (by rw [hs])
    rcases hc : check upstream m₁ { w with net := net₁ } with ⟨e | m₂, w₂⟩ <;> rw [hc] at hgrow
    · exact ⟨hgrow, by simp⟩
    · refine ⟨hgrow, ?_⟩
      rintro m ⟨⟩
      exact ⟨m₁, _, w₂, hheard, hr, World.Grows.net w net₁, hc, World.Grows.refl w₂⟩

theorem beginHealth_grows (f : Forwarder σ) (upstream : Str) (w : World σ) : w.Grows (beginHealth f upstream w).2 := by
  unfold beginHealth
  split
  · exact World.Grows.refl w
  · exact World.Grows.net w _

theorem finishHealth_grows (f : Forwarder σ) (upstream : Str) (e : Option Err) (w : World σ) :
    w.Grows (finishHealth f upstream e w) := by
  unfold finishHealth
  split
  · exact World.Grows.refl w
  · exact World.Grows.net w _

variable (lib env f ctx q) in
/-- What all attempts do: the histories grow, and what is returned was the answer of one attempt. -/
theorem tryAll_spec (hcheck : ∀ up m w, World.Grows w (check up m w).2) (l : List Str) (last : Option Err)
    (w : World σ) :
    w.Grows (tryAll lib env f check ctx q l last w).2 ∧
      ∀ m up, (tryAll lib env f check ctx q l last w).1 = .ok (m, up) → ∃ m₂, m = restore f q m₂ ∧
        Answers lib env check q w up m₂ (tryAll lib env f check ctx q l last w).2 := by
  induction l generalizing last w with
  | nil => exact ⟨World.Grows.refl w, by simp [tryAll]⟩
  | cons upstream rest ih =>
    -- the attempts after this one failed in the world `v`
    have hrest : ∀ (last : Option Err) (v : World σ), w.Grows v →
        w.Grows (tryAll lib env f check ctx q rest last v).2 ∧
          ∀ m up, (tryAll lib env f check ctx q rest last v).1 = .ok (m, up) → ∃ m₂, m = restore f q m₂ ∧
            Answers lib env check q w up m₂ (tryAll lib env f check ctx q rest last v).2 := by
      intro last v hv
      obtain ⟨hg, hok⟩ := ih last v
      refine ⟨hv.trans hg, fun m up h => ?_⟩
      obtain ⟨m₂, hm, hans⟩ := hok m up h
      exact ⟨m₂, hm, hans.mono hv (World.Grows.refl _)⟩
    rw [tryAll]
    cases ctx.err w.net with
    | some e => exact ⟨World.Grows.refl w, by simp⟩
    | none =>
      have hbegin := beginHealth_grows f upstream w
      rcases hb : beginHealth f upstream w with ⟨_ | _, w₁⟩ <;> rw [hb] at hbegin
      · exact hrest _ w₁ hbegin
      · have hatt : w₁.Grows (attempt lib env f check upstream q w₁).2 ∧ _ := attempt_spec hcheck upstream w₁
        rcases ha : attempt lib env f check upstream q w₁ with ⟨m₂ | e | e, w₂⟩ <;> rw [ha] at hatt <;>
          obtain ⟨hgrow, hans⟩ := hatt <;> simp only [ha]
        · have hend := finishHealth_grows f upstream none w₂
          refine ⟨hbegin.trans (hgrow.trans hend), ?_⟩
          rintro m up ⟨⟩
          exact ⟨m₂, rfl, (hans m₂ rfl).mono hbegin hend⟩
        · exact hrest _ _ (hbegin.trans (hgrow.trans (finishHealth_grows f upstream (some e) w₂)))
        · exact ⟨hbegin.trans (hgrow.trans (finishHealth_grows f upstream (some e) w₂)), by simp⟩

/-! ### The answer of a forwarder -/

theorem validatorExchange_grows (upstream : Str) (query : Msg) (w : World σ) :
    w.Grows (validatorExchange lib env ctx upstream query w).2 := by
  have h : ∀ f : Forwarder σ, w.Grows
      (tryAll lib env f (fun _ m w => (.ok m, w)) ctx query f.schedule none w).2 :=
    fun f => (tryAll_spec lib env f ctx query (fun _ _ w => World.Grows.refl w) _ _ _).1
  unfold validatorExchange
  dsimp only
  split
  · rename_i h'
    exact (congrArg Prod.snd h') ▸ h _
  · rename_i h'
    exact (congrArg Prod.snd h') ▸ h _

/-- `Validate` returned secure on the response, with the anchors of the forwarder and the exchange of one upstream. -/
def Secured (lib : Miekg) (env : Env σ) (f : Forwarder σ) (q response : Msg) : Prop :=
  ∃ anchors ctx upstream, ∃ w : World σ, f.validator = some anchors ∧
    (validate lib anchors (env.clock w.net) (validatorExchange lib env ctx upstream) ctx.walk q response w).1 =
      .ok .secure

/-- What the validation step of a forwarder does: it touches nothing but the AD bit, and sets it only after `Validate`
returned secure, which it notes in the history. -/
theorem Forwarder.check_spec (lib : Miekg) (env : Env σ) (f : Forwarder σ) (ctx : Ctx σ) (q : Msg) (upstream : Str) (m : Msg)
    (w : World σ) :
    w.Grows (f.check lib env ctx q upstream m w).2 ∧
      ∀ m₂, (f.check lib env ctx q upstream m w).1 = .ok m₂ → ∃ ad, m₂ = { m with authenticatedData := ad } ∧
        (f.validator.isSome → q.checkingDisabled = false → ad = true →
          Secured lib env f q m ∧ (q, m) ∈ (f.check lib env ctx q upstream m w).2.secured) := by
  unfold Forwarder.check
  cases hv : f.validator with
  | none =>
    refine ⟨World.Grows.refl w, ?_⟩
    rintro m₂ ⟨⟩
    exact ⟨m.authenticatedData, rfl, by simp⟩
  | some anchors =>
    by_cases hcd : q.checkingDisabled = true
    · simp only [hcd, if_true]
      refine ⟨World.Grows.refl w, ?_⟩
      rintro m₂ ⟨⟩
      exact ⟨m.authenticatedData, rfl, by simp⟩
    · simp only [if_neg hcd]
      have hgrow : w.Grows (validate lib anchors (env.clock w.net) (validatorExchange lib env ctx upstream) ctx.walk
          q m w).2 :=
        validate_state World.Grows.refl World.Grows.trans lib anchors _ (validatorExchange_grows upstream) _ _ _ _
      rcases hval : validate lib anchors (env.clock w.net) (validatorExchange lib env ctx upstream) ctx.walk q m w with
        ⟨e | _ | _, w₁⟩ <;> rw [hval] at hgrow
      · exact ⟨hgrow, by simp⟩
      · refine ⟨hgrow, ?_⟩
        rintro m₂ ⟨⟩
        exact ⟨false, rfl, by simp⟩
      · refine ⟨hgrow.trans ⟨rfl, List.suffix_cons _ _⟩, ?_⟩
        rintro m₂ ⟨⟩
        refine ⟨true, rfl, fun _ _ _ => ⟨?_, List.mem_cons_self⟩⟩
        exact ⟨anchors, ctx, upstream, w, hv, by rw [hval]⟩

/-- **The answer of a forwarder.** It was heard from the network and passed the checks; the AD bit says that `Validate`
returned secure on it. -/
theorem Forwarder.resolve_ok (lib : Miekg) (env : Env σ) (f : Forwarder σ) (ctx : Ctx σ) (q : Msg) (w : World σ) :
    w.Grows (f.resolve lib env ctx q w).2 ∧
      ∀ m up, (f.resolve lib env ctx q w).1 = .ok (m, up) → ∃ m₁ ad, Heard env m₁ ∧ checkResponse lib q m₁ = .ok () ∧
        m = restore f q { m₁ with authenticatedData := ad } ∧
        (m.authenticatedData = true →
          q.checkingDisabled = false ∧ Secured lib env f q m₁ ∧ (q, m₁) ∈ (f.resolve lib env ctx q w).2.secured) := by
  have hcheck : ∀ up m w, World.Grows w (f.check lib env ctx q up m w).2 :=
    fun up m w => (f.check_spec lib env ctx q up m w).1
  obtain ⟨hgrow, hok⟩ := tryAll_spec lib env f ctx q hcheck f.schedule none w
  refine ⟨hgrow, fun m up h => ?_⟩
  obtain ⟨m₂, rfl, m₁, w₁, w₂, hheard, hresp, -, hval, hend⟩ := hok m up h
  have hspec := (f.check_spec lib env ctx q up m₁ w₁).2 m₂ (by rw [hval])
  rw [hval] at hspec
  obtain ⟨ad, rfl, hsec⟩ := hspec
  refine ⟨m₁, ad, hheard, hresp, rfl, fun had => ?_⟩
  have had' : ¬ (f.validator.isNone || q.checkingDisabled) = true ∧ ad = true := by
    simp only [restore] at had
    split at had
    · cases had
    · rename_i hno
      exact ⟨hno, had⟩
  simp only [Bool.or_eq_true, not_or, Bool.not_eq_true, Option.isNone_eq_false_iff] at had'
  obtain ⟨hs, hmem⟩ := hsec had'.1.1 had'.1.2 had'.2
  exact ⟨had'.1.2, hs, hend.secured.subset hmem⟩

end

end Velora.Dns

namespace Velora.Forwarding

open Velora.Wire Velora.Dns

/-- The router hands over one query, and the history of validations grows. -/
theorem Router.resolve_world {σ : Type} (lib : Miekg) (env : Env σ) (r : Router σ) (ctx : Ctx σ) (q : Msg) (w : World σ) :
    (r.resolve lib env ctx q w).2.asked = q :: w.asked ∧ w.secured <:+ (r.resolve lib env ctx q w).2.secured := by
  obtain ⟨hasked, hsec⟩ := ((r.select q).resolve_ok lib env ctx q { w with asked := q :: w.asked }).1
  exact ⟨hasked, hsec⟩

end Velora.Forwarding
