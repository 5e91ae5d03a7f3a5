import Velora.Forwarding.Service

/-!
# Routes after a change of the rules

A query that runs alone does what `Resolver.resolve` does (`resolveSteps_alone`). Among others, the answer it brings from the
route of an old table may be stored after the change of a rule has dropped the names of the rule's domain from the cache. When
no answer is stored so late (`fresh`), a query that starts after a save or a delete has returned is answered through the
table that was published, or a later one (`no_stale_route`); otherwise the old answer is served (`stale_route`).
-/

namespace Velora.Forwarding

open Velora.Lib Velora.Lib.Text Velora.Wire Velora.Dns

variable {σ : Type} {site : Site σ}

/-- A fully qualified name is a domain or lies below it. -/
def inDomain (domain name : Str) : Bool :=
  lower name == domain ++ ['.'] || ('.' :: (domain ++ ['.'])).isSuffixOf (lower name)

/-- An answer is stored only while no change of a rule for its name has dropped the domain since its route was chosen. -/
def fresh (w : Traffic σ) : Traffic.Turn σ → Bool
  | .start _ => true
  | .turn i _ =>
    match w.threads[i]? with
    | some (_, .call (.put q _) _) =>
      w.shared.dropped.all (fun d => !inDomain d.2 q.question0.name || d.1 ≤ w.shared.chosen i)
    | _ => true

/-! ### A query alone -/

/-- The run of a program alone ends with a result and a state of the node, which has the resolver `r`. -/
def Alone (site : Site σ) (i : ℕ) {α : Type} (p : Script σ α) (s : Live σ) (r : Resolver σ) (out : α × State σ) : Prop :=
  ∃ s', p.exec (act site i) {} s = some (out.1, s') ∧ s'.node = ⟨r, out.2⟩

section

variable {i : ℕ} {ctx : Ctx σ} {s : Live σ} {r : Resolver σ} {st : State σ}

theorem alone_done {α : Type} {a : α} (hs : s.node = ⟨r, st⟩) : Alone site i (.done a) s r (a, st) := ⟨s, rfl, hs⟩

/-- A step, and the rest of the program. -/
theorem alone_call {α : Type} {op : Op σ} {k : Ans op → Script σ α} {a : Ans op} {s' : Live σ} {out : α × State σ}
    (hact : act site i op {} s = some (a, s')) (hrest : Alone site i (k a) s' r out) :
    Alone site i (.call op k) s r out := by
  obtain ⟨t, hexec, hnode⟩ := hrest
  exact ⟨t, by rw [Prog.exec_call, hact]; exact hexec, hnode⟩

theorem alone_resolver {α : Type} {k : Resolver σ → Script σ α} {out : α × State σ} (hs : s.node = ⟨r, st⟩)
    (hrest : Alone site i (k r) s r out) : Alone site i (.call .resolver k) s r out := by
  have hact : act site i .resolver {} s = some (r, s) := by simp [act, perform, Live.meet, hs]
  exact alone_call hact hrest

theorem alone_bind {α β : Type} {p : Script σ α} {f : α → Script σ β} {a : α} {out : β × State σ}
    (hp : Alone site i p s r (a, st)) (hrest : ∀ s', s'.node = ⟨r, st⟩ → Alone site i (f a) s' r out) :
    Alone site i (p >>= f) s r out := by
  obtain ⟨s', hexec, hnode⟩ := hp
  obtain ⟨t, hexec', hend⟩ := hrest s' hnode
  exact ⟨t, by rw [Prog.exec_bind, hexec]; exact hexec', hend⟩

theorem act_exchange {f : Forwarder σ} {q : Msg} {out : Except Err (Msg × Str)} {w : World σ}
    (h : f.resolve site.lib site.env ctx q s.world = (out, w)) :
    act site i (.exchange f ctx q) {} s = some (out, s.setWorld w) := by
  simp [act, perform, Live.meet, h]

theorem act_get {q : Msg} {cache : Cache} {found : Option Msg} (hs : s.node = ⟨r, st⟩)
    (h : st.cache.get q (site.env.clock st.world.net) = (cache, found)) :
    ∃ s', act site i (.get q) {} s = some (found, s') ∧ s'.node = ⟨r, { st with cache := cache }⟩ := by
  have hget : s.node.state.cache.get q (site.env.clock s.world.net) = (cache, found) := by
    rw [Live.world, hs]
    exact h
  refine ⟨{ s.setCache cache with
      origins := if found.isSome then ⟨i, q, s.via ((Cache.key q).getD [])⟩ :: s.origins else s.origins }, ?_, ?_⟩
  · simp only [act, perform, Live.meet, hget]
  · simp [Live.setCache, hs]

theorem forwardSteps_alone (hs : s.node = ⟨r, st⟩) (q : Msg) :
    Alone site i (forwardSteps ctx q) s r (r.forward site.lib site.env ctx q st) := by
  unfold forwardSteps
  simp only [Prog.ask_bind, Prog.pure_eq]
  refine alone_call rfl ?_
  unfold Resolver.forward Router.resolve
  dsimp only [Live.meet, Live.world]
  rw [hs]
  rcases hres : (r.forwarder.select q).resolve site.lib site.env ctx q
    { st.world with asked := q :: st.world.asked } with ⟨e | ⟨m, upstream⟩, w⟩
  · exact alone_call (act_exchange hres) (alone_done (by simp [Live.setWorld, hs]))
  · refine alone_call (act_exchange hres) (@alone_resolver _ _ _ _ _ { st with world := w } _ _ _ (by simp [Live.setWorld, hs]) ?_)
    dsimp only
    split
    · exact alone_done (by simp [Live.setWorld, hs])
    · refine alone_call rfl (alone_call rfl ?_)
      simp only [Live.meet, Live.world, Live.setWorld, Live.setCache, hs]
      exact alone_done rfl

theorem beyondSteps_alone (hs : s.node = ⟨r, st⟩) (ht : st.trace = none) (depth : ℕ) (q : Msg) :
    Alone site i (beyondSteps ctx q) s r (r.beyond site.lib site.env ctx depth q st) := by
  rw [Resolver.beyond_real ht]
  unfold beyondSteps
  simp only [Prog.ask_bind, Prog.pure_eq]
  split
  · exact alone_done hs
  · rcases hget : st.cache.get q (site.env.clock st.world.net) with ⟨cache, found⟩
    obtain ⟨s', hact, hnode⟩ := act_get (i := i) hs hget
    refine alone_call hact ?_
    cases found with
    | none => exact forwardSteps_alone hnode q
    | some m =>
      refine alone_resolver hnode ?_
      dsimp only
      cases r.blockedAnswerName ctx m with
      | none => exact alone_done hnode
      | some name => exact alone_done hnode

/-- **A query that runs alone does what `resolve` does.** -/
theorem resolveSteps_alone (hs : s.node = ⟨r, st⟩) (ht : st.trace = none) (n : ℕ) (q : Msg) :
    Alone site i (resolveSteps ctx n q) s r (r.resolveAt site.lib site.env ctx n q st) := by
  induction n generalizing q with
  | zero => exact alone_done hs
  | succ n ih =>
    rw [Resolver.resolveAt_real ht]
    unfold resolveSteps
    simp only [Prog.ask_bind, Prog.pure_eq]
    have herr : act site i (.err ctx) {} s = some (ctx.err st.world.net, s) := by
      simp [act, perform, Live.meet, Live.world, hs]
    refine alone_call herr ?_
    cases ctx.err st.world.net with
    | some e => exact alone_done hs
    | none =>
      refine alone_resolver hs ?_
      dsimp only
      split
      · exact alone_done hs
      · refine alone_resolver hs ?_
        cases r.localMatch q with
        | none => exact beyondSteps_alone hs ht _ q
        | some l =>
          refine alone_resolver hs ?_
          dsimp only
          cases r.blockedAnswerName ctx l.msg with
          | some name => exact alone_done hs
          | none =>
            dsimp only
            cases follows q l.msg with
            | none => exact alone_done hs
            | some target =>
              have htail := ih (retarget q target)
              dsimp only
              rcases hout : r.resolveAt site.lib site.env ctx n (retarget q target) st with ⟨e | tail, st'⟩ <;>
                rw [hout] at htail
              · exact alone_bind htail fun s' hnode => alone_done hnode
              · refine alone_bind htail fun s' hnode => ?_
                dsimp only
                split
                · exact alone_resolver hnode (alone_done hnode)
                · exact alone_done hnode

end

/-! ### What the calls do, in which order -/

/-- The domain is one that `save` stores. -/
def Normal (domain : Str) : Prop := Filtering.name domain = some domain

/-- Where a thread is: it has nothing to do with the rules, it holds the mutex, it has read the rules, it has published a
table and the domains `left` are still to be dropped, or it has changed a rule and given the mutex back. -/
inductive Phase where
  | free
  | held
  | read (rules : List Rule)
  | changed (left : List Str)
  | finished

/-- The steps a thread may take in a phase, and what it knows of their answers. -/
def protocol : (op : Op σ) → (Ans op → Phase → Prop) → Phase → Prop
  | .exchange _ _ q, Q, ph => ∀ out, (∀ m up, out = .ok (m, up) → m.question = q.question) → Q out ph
  | .normalizeUpstreamTTL m, Q, ph => ∀ m' : Msg, m'.question = m.question → Q m' ph
  | .put q m, Q, ph => m.question = q.question ∧ Q () ph
  | .lock, Q, ph => ph = .free ∧ Q () .held
  | .rules, Q, ph => ph = .held ∧ ∀ rules, (∀ r ∈ rules, Normal r.domain) → Q rules (.read rules)
  | .saveForwardRule rule, Q, ph => ∀ out, (∀ saved, out = .ok saved → saved.domain = rule.domain) → Q out ph
  | .publish c, Q, ph => ∃ rules, ph = .read rules ∧ (∀ r ∈ c.apply rules, Normal r.domain) ∧ Q () (.changed (c.domains rules))
  | .changed domain, Q, ph => ∃ left, ph = .changed left ∧ Normal domain ∧ Q () (.changed (left.filter (· ≠ domain)))
  | .unlock, Q, ph => (ph = .held ∨ ∃ rules, ph = .read rules) ∧ Q () .free ∨ ph = .changed [] ∧ Q () .finished
  | .event _, Q, ph => ∀ a, Q a ph
  | .err _, Q, ph => ∀ a, Q a ph
  | .resolver, Q, ph => ∀ a, Q a ph
  | .get _, Q, ph => ∀ a, Q a ph
  | .select _, Q, ph => ∀ a, Q a ph
  | .deleteForwardRule _, Q, ph => ∀ a, Q a ph

section

variable {β : Type} {Q : β → Phase → Prop} {ph : Phase}

theorem normalizeNegativeTTL_question (m : Msg) : (Cache.normalizeNegativeTTL m).question = m.question := by
  unfold Cache.normalizeNegativeTTL
  split <;> rfl

theorem normalizeUpstreamTTL_question (c : Cache) (m : Msg) : (c.normalizeUpstreamTTL m).question = m.question := by
  unfold Cache.normalizeUpstreamTTL
  split
  · rfl
  split <;> rfl

theorem forwardSteps_obeys {Q : Except Failure Result → Phase → Prop} (hQ : ∀ out, Q out ph) (ctx : Ctx σ) (q : Msg) :
    (forwardSteps ctx q).obeys protocol Q ph := by
  unfold forwardSteps
  simp only [Prog.ask_bind, Prog.pure_eq]
  intro f out hout
  cases out with
  | error e => exact hQ _
  | ok res =>
    obtain ⟨m, up⟩ := res
    intro r
    dsimp only
    split
    · exact hQ _
    · intro m' hm'
      refine ⟨?_, hQ _⟩
      rw [hm', normalizeNegativeTTL_question, hout m up rfl]

theorem beyondSteps_obeys {Q : Except Failure Result → Phase → Prop} (hQ : ∀ out, Q out ph) (ctx : Ctx σ) (q : Msg) :
    (beyondSteps ctx q).obeys protocol Q ph := by
  unfold beyondSteps
  simp only [Prog.ask_bind, Prog.pure_eq]
  split
  · exact hQ _
  · intro found
    cases found with
    | none => exact forwardSteps_obeys hQ ctx q
    | some m =>
      intro r
      dsimp only
      split <;> exact hQ _

/-- A query stores only messages for its own question, and has nothing to do with the rules. -/
theorem resolveSteps_obeys {Q : Except Failure Result → Phase → Prop} (hQ : ∀ out, Q out ph) (ctx : Ctx σ) (n : ℕ) (q : Msg) :
    (resolveSteps ctx n q).obeys protocol Q ph := by
  induction n generalizing q Q with
  | zero => exact hQ _
  | succ n ih =>
    unfold resolveSteps
    simp only [Prog.ask_bind, Prog.pure_eq]
    intro err
    cases err with
    | some e => exact hQ _
    | none =>
      intro r
      dsimp only
      split
      · exact hQ _
      · intro r
        dsimp only
        split
        · exact beyondSteps_obeys hQ ctx q
        · rename_i l hl
          intro r
          dsimp only
          split
          · exact hQ _
          split
          · exact hQ _
          · rename_i target htarget
            rw [Prog.obeys_bind]
            refine ih (fun out => ?_) (retarget q target)
            cases out with
            | error e => exact hQ _
            | ok tail =>
              dsimp only
              split
              · exact fun r => hQ _
              · exact hQ _

/-- The rule that `normalize` returns has a domain it leaves as it is. -/
theorem normalize_normal {self : List AddrPort} {rule normalized : Rule} (h : normalize self rule = .ok normalized) :
    Normal normalized.domain := by
  unfold normalize at h
  dsimp only at h
  split at h
  · cases h
  split at h
  · cases h
  rename_i domain hdomain
  split at h
  · cases h
  split at h
  · cases h
  obtain ⟨upstreams, -, hrule⟩ := Loops.bind_eq_ok.1 h
  cases hrule
  exact Filtering.name_name hdomain

theorem Normal.ne_nil {domain : Str} (h : Normal domain) : domain ≠ [] := (Filtering.name_eq_some.1 h).2.1

/-- The rules after a change have domains that `save` stores, if the new rule has one. -/
theorem apply_normal {c : Change} {rules : List Rule} (hrules : ∀ r ∈ rules, Normal r.domain)
    (hc : ∀ saved, (c = .added saved ∨ ∃ index, c = .replaced index saved) → Normal saved.domain) :
    ∀ r ∈ c.apply rules, Normal r.domain := by
  intro r hr
  cases c with
  | added saved =>
    rcases List.mem_append.1 hr with hr | hr
    · exact hrules r hr
    · rw [List.mem_singleton.1 hr]
      exact hc saved (Or.inl rfl)
  | replaced index saved =>
    rcases List.mem_or_eq_of_mem_set hr with hr | rfl
    · exact hrules r hr
    · exact hc r (Or.inr ⟨index, rfl⟩)
  | removed index => exact hrules r (List.mem_of_mem_eraseIdx hr)

/-- `save` drops the domain of the rule as it was and as it is. -/
theorem saveLocked_obeys {Q : Except Error Rule → Phase → Prop} {normalized : Rule} (hnormal : Normal normalized.domain)
    (hfail : ∀ e rules, Q (.error e) (.read rules)) (hok : ∀ saved, Q (.ok saved) (.changed [])) :
    (saveLocked normalized : Script σ _).obeys protocol Q .held := by
  unfold saveLocked
  simp only [Prog.ask_bind, Prog.pure_eq]
  refine ⟨rfl, fun rules hrules => ?_⟩
  dsimp only
  split
  · exact hfail _ _
  rename_i index hindex
  split
  · exact hfail _ _
  split
  · exact hfail _ _
  intro out hout
  cases out with
  | error e => exact hfail _ _
  | ok saved =>
    have hsaved : Normal saved.domain := hout saved rfl ▸ hnormal
    dsimp only
    cases index with
    | none =>
      refine ⟨rules, rfl, apply_normal hrules ?_, _, rfl, hsaved, ?_⟩
      · rintro r (⟨⟨⟩⟩ | ⟨i, ⟨⟩⟩)
        exact hsaved
      · simpa [Change.domains] using hok saved
    | some index =>
      refine ⟨rules, rfl, apply_normal hrules ?_, _, rfl, hsaved, ?_⟩
      · rintro r (⟨⟨⟩⟩ | ⟨i, ⟨⟩⟩)
        exact hsaved
      cases hold : rules[index]? with
      | none => simpa [Change.domains, hold] using hok saved
      | some old =>
        have holdn : Normal old.domain := hrules old (List.mem_of_getElem? hold)
        simp only [Change.domains, hold, Option.map_some, Option.toList_some, Option.getD_some]
        by_cases hsame : old.domain = saved.domain
        · simpa [hsame] using hok saved
        · rw [if_pos ⟨holdn.ne_nil, hsame⟩]
          refine ⟨_, rfl, holdn, ?_⟩
          simpa [hsame] using hok saved

theorem saveSteps_obeys {Q : Except Error Rule → Phase → Prop} (self : List AddrPort) (rule : Rule)
    (hfail : ∀ e, Q (.error e) .free) (hok : ∀ saved, Q (.ok saved) .finished) :
    (saveSteps self rule : Script σ _).obeys protocol Q .free := by
  unfold saveSteps
  split
  · exact hfail _
  rename_i normalized hn
  simp only [Prog.ask_bind, Prog.pure_eq]
  refine ⟨rfl, ?_⟩
  dsimp only
  rw [Prog.obeys_bind]
  refine saveLocked_obeys (normalize_normal hn) ?_ ?_
  · exact fun e rules => Or.inl ⟨Or.inr ⟨rules, rfl⟩, hfail e⟩
  · exact fun saved => Or.inr ⟨rfl, hok saved⟩

/-- `Delete` drops the domain of the rule. -/
theorem deleteLocked_obeys {Q : Option Error → Phase → Prop} (id : ℤ) (hfail : ∀ e rules, Q (some e) (.read rules))
    (hok : Q none (.changed [])) : (deleteLocked id : Script σ _).obeys protocol Q .held := by
  unfold deleteLocked
  simp only [Prog.ask_bind, Prog.pure_eq]
  refine ⟨rfl, fun rules hrules => ?_⟩
  dsimp only
  split
  · exact hfail _ _
  rename_i index hindex
  intro err
  cases err with
  | some e => exact hfail _ _
  | none =>
    have hlt : index < rules.length := (List.findIdx?_eq_some_iff_getElem.1 hindex).1
    have hrule : rules[index]? = some rules[index] := List.getElem?_eq_getElem hlt
    refine ⟨rules, rfl, apply_normal hrules ?_, _, rfl, ?_, ?_⟩
    · rintro r (⟨⟨⟩⟩ | ⟨i, ⟨⟩⟩)
    · rw [hrule]
      exact hrules _ (List.getElem_mem hlt)
    · simpa [Change.domains, hrule] using hok

theorem deleteSteps_obeys {Q : Option Error → Phase → Prop} (id : ℤ) (hfail : ∀ e, Q (some e) .free) (hok : Q none .finished) :
    (deleteSteps id : Script σ _).obeys protocol Q .free := by
  unfold deleteSteps
  simp only [Prog.ask_bind, Prog.pure_eq]
  refine ⟨rfl, ?_⟩
  dsimp only
  rw [Prog.obeys_bind]
  refine deleteLocked_obeys id ?_ ?_
  · exact fun e rules => Or.inl ⟨Or.inr ⟨rules, rfl⟩, hfail e⟩
  · exact Or.inr ⟨rfl, hok⟩

/-- **Every call keeps to the protocol.** A save or a delete that succeeds is over. -/
theorem body_obeys (self : List AddrPort) (c : Call σ) :
    (c.body self).obeys protocol (fun out ph => out.success = true → ph = .finished) .free := by
  cases c with
  | resolve ctx q =>
    rw [Call.body, Prog.map_eq, Prog.obeys_bind]
    refine resolveSteps_obeys (fun out => ?_) ctx 16 q
    simp [Reply.success]
  | create rule =>
    rw [Call.body, Prog.map_eq, Prog.obeys_bind]
    exact saveSteps_obeys self _ (fun e => by simp [Reply.success]) (fun saved _ => rfl)
  | update id rule =>
    rw [Call.body]
    split
    · simp [Reply.success]
    · rw [Prog.map_eq, Prog.obeys_bind]
      exact saveSteps_obeys self _ (fun e => by simp [Reply.success]) (fun saved _ => rfl)
  | delete id =>
    rw [Call.body, Prog.map_eq, Prog.obeys_bind]
    exact deleteSteps_obeys id (fun e => by simp [Reply.success]) (fun _ => rfl)
  | event e =>
    simp only [Call.body, Prog.ask_bind, Prog.pure_eq]
    intro a
    simp [Reply.success]

end

/-! ### What holds in every run -/

/-- What is stored under a key is for a query with that key, and came through a table no older than the changes after which
its name was dropped. -/
def Current (s : Live σ) (k : Str) (m : Msg) : Prop :=
  (∃ q, Cache.key q = some k ∧ m.question = q.question) ∧
    ∀ d ∈ s.dropped, inDomain d.2 m.question0.name = true → d.1 ≤ s.via k

/-- **The invariant.** -/
structure Sound (s : Live σ) : Prop where
  rules : ∀ r ∈ s.rules, Normal r.domain
  published : ∀ j, s.published j ≤ s.version
  dropped : ∀ d ∈ s.dropped, d.1 ≤ s.version
  entries : Dns.Holds (fun _ k m => Current s k m) s.node.state

/-- What is true of a thread in a phase. -/
def Phase.At (s : Live σ) (i : ℕ) : Phase → Prop
  | .free => True
  | .held => s.mu = some i
  | .read rules => s.mu = some i ∧ s.rules = rules
  | .changed left => s.mu = some i ∧ ∀ d ∈ s.domains i, d ∈ left ∨ (s.published i, d) ∈ s.dropped
  | .finished => ∀ d ∈ s.domains i, (s.published i, d) ∈ s.dropped

/-- A thread is in a phase and goes on as the protocol has it. -/
def Follows (s : Live σ) (i : ℕ) (p : Script σ Reply) : Prop :=
  ∃ ph : Phase, ph.At s i ∧ p.obeys protocol (fun out ph => out.success = true → ph = .finished) ph

/-- What a step of the thread `i` leaves alone, and what it adds to the histories. -/
structure Frame (i : ℕ) (s s' : Live σ) : Prop where
  mu : ∀ j, j ≠ i → s.mu = some j → s'.mu = some j ∧ s'.rules = s.rules
  published : ∀ j, j ≠ i → s'.published j = s.published j
  domains : ∀ j, j ≠ i → s'.domains j = s.domains j
  dropped : ∀ d ∈ s.dropped, d ∈ s'.dropped
  origins : ∀ a ∈ s'.origins, a ∈ s.origins ∨
    a.thread = i ∧ ∀ d ∈ s.dropped, inDomain d.2 a.query.question0.name = true → d.1 ≤ a.via

section

variable {i j : ℕ} {s s' t : Live σ} {ph : Phase}

theorem Frame.phase (h : Frame i s s') (hji : j ≠ i) (hph : ph.At s j) : ph.At s' j := by
  have hkeep : ∀ d, (s.published j, d) ∈ s.dropped → (s'.published j, d) ∈ s'.dropped := by
    intro d hd
    rw [h.published j hji]
    exact h.dropped _ hd
  cases ph with
  | free => trivial
  | held => exact (h.mu j hji hph).1
  | read rules => exact ⟨(h.mu j hji hph.1).1, (h.mu j hji hph.1).2.trans hph.2⟩
  | changed left =>
    refine ⟨(h.mu j hji hph.1).1, fun d hd => ?_⟩
    rw [h.domains j hji] at hd
    exact (hph.2 d hd).imp_right (hkeep d)
  | finished =>
    intro d hd
    rw [h.domains j hji] at hd
    exact hkeep d (hph d hd)

/-- A step that has nothing to do with the rules. -/
structure Quiet (s s' : Live σ) : Prop where
  mu : s'.mu = s.mu
  rules : s'.rules = s.rules
  version : s'.version = s.version
  published : s'.published = s.published
  domains : s'.domains = s.domains
  dropped : s'.dropped = s.dropped

namespace Quiet

variable (h : Quiet s s')

include h

theorem frame (horigins : ∀ a ∈ s'.origins, a ∈ s.origins ∨
    a.thread = i ∧ ∀ d ∈ s.dropped, inDomain d.2 a.query.question0.name = true → d.1 ≤ a.via) : Frame i s s' where
  mu _ _ hmu := ⟨h.mu.trans hmu, h.rules⟩
  published _ _ := by rw [h.published]
  domains _ _ := by rw [h.domains]
  dropped _ hd := h.dropped ▸ hd
  origins := horigins

theorem phase (hph : ph.At s i) : ph.At s' i := by
  cases ph <;> simp only [Phase.At, h.mu, h.rules, h.published, h.domains, h.dropped] <;> exact hph

theorem sound (hs : Sound s) (hentries : Dns.Holds (fun _ k m => Current s' k m) s'.node.state) : Sound s' where
  rules := by rw [h.rules]; exact hs.rules
  published := by rw [h.published, h.version]; exact hs.published
  dropped := by rw [h.dropped, h.version]; exact hs.dropped
  entries := hentries

end Quiet

/-- The outside changes the network only. -/
theorem meet_quiet (x : Outside σ) : Quiet s (s.meet x) := by
  unfold Live.meet
  split <;> exact ⟨rfl, rfl, rfl, rfl, rfl, rfl⟩

theorem meet_sound (x : Outside σ) (h : Sound s) : Sound (s.meet x) := by
  refine (meet_quiet x).sound h ?_
  unfold Live.meet
  split <;> exact ⟨h.entries.inv, h.entries.entries⟩

/-! ### One step -/

theorem event_sound {e : Event σ} (he : elsewhere e = true) (h : Sound s) :
    Dns.Holds (fun _ k m => Current s k m) (s.node.step site.lib site.env site.options e).state := by
  refine Dns.step_entries (Q := fun _ => False) (fun _ _ _ _ _ hk => hk) (fun _ _ hq => hq) ?_ ?_ h.entries
  · intro ctx q w m up w' c k hq
    exact hq.elim
  · rintro ctx q rfl
    simp [elsewhere] at he

/-- The domain of a name is that of the key. -/
theorem inDomain_congr {a b : Str} (h : lower a = lower b) (domain : Str) : inDomain domain a = inDomain domain b := by
  simp only [inDomain, h]

theorem inDomain_of_key {q q' : Msg} {k domain : Str} (h : Cache.key q = some k) (h' : Cache.key q' = some k) :
    inDomain domain q.question0.name = inDomain domain q'.question0.name := by
  have htuple := (Cache.key_eq_iff h h').1 rfl
  exact inDomain_congr (congrArg Cache.Tuple.name htuple) domain

/-- What `Get` returns came through a table that is new enough. -/
theorem get_sound {q : Msg} {now : ℕ} {cache : Cache} {found : Option Msg} (h : Sound s)
    (hget : s.node.state.cache.get q now = (cache, found)) :
    Dns.Holds (fun _ k m => Current s k m) { s.node.state with cache := cache } ∧
      (found.isSome = true → ∀ d ∈ s.dropped, inDomain d.2 q.question0.name = true → d.1 ≤ s.via ((Cache.key q).getD [])) := by
  obtain ⟨hholds, hfound⟩ := h.entries.get hget
  refine ⟨hholds, fun hsome d hd hin => ?_⟩
  obtain ⟨m, rfl⟩ := Option.isSome_iff_exists.1 hsome
  obtain ⟨e, he, hkey, -⟩ := hfound m rfl
  obtain ⟨⟨q', hq', hquestion⟩, hcurrent⟩ := h.entries.entries e he
  rw [hkey, Option.getD_some]
  refine hcurrent d hd ?_
  rw [inDomain_of_key hkey hq'] at hin
  rw [Msg.question0, hquestion]
  exact hin

/-- An answer that is stored in time keeps the entries current. -/
theorem put_sound {q m : Msg} {now : ℕ} (h : Sound s) (hm : m.question = q.question)
    (hfresh : ∀ d ∈ s.dropped, inDomain d.2 q.question0.name = true → d.1 ≤ s.chosen i) :
    let via := match Cache.entryOf site.lib s.node.state.cache.max q m now with
      | some e => Function.update s.via e.key (s.chosen i)
      | none => s.via
    let s' : Live σ := { s.setCache (s.node.state.cache.put site.lib q m now) with via := via }
    Dns.Holds (fun _ k m => Current s' k m) s'.node.state := by
  intro via s'
  cases he : Cache.entryOf site.lib s.node.state.cache.max q m now with
  | none =>
    have hs' : s' = s := by
      simp only [s', via, he, Cache.put_none he]
      rfl
    rw [hs']
    exact h.entries
  | some e =>
    have hvia : s'.via = Function.update s.via e.key (s.chosen i) := by simp only [s', via, he]
    obtain ⟨hinv, hvals⟩ := Cache.put_some h.entries.inv he
    obtain ⟨-, -, -, k, hk, rfl⟩ := Cache.entryOf_some he
    refine ⟨hinv, fun x hx => ?_⟩
    rw [show Cache.values s'.node.state.cache = _ from hvals] at hx
    rcases List.mem_cons.1 hx with rfl | hx
    · -- the new entry
      have hquestion : (Cache.normalizeNegativeTTL m).question = q.question := by
        rw [normalizeNegativeTTL_question, hm]
      refine ⟨⟨q, hk, hquestion⟩, fun d hd hin => ?_⟩
      rw [Msg.question0, hquestion] at hin
      rw [hvia, Function.update_self]
      exact hfresh d hd hin
    · -- an old one, under another key
      have hmem := List.mem_filter.1 ((Lru.makeRoom_sublist _ _).subset hx)
      have hne : x.key ≠ k := by simpa using hmem.2
      obtain ⟨hquery, hcurrent⟩ := h.entries.entries x hmem.1
      refine ⟨hquery, fun d hd hin => ?_⟩
      rw [hvia, Function.update_of_ne hne]
      exact hcurrent d hd hin

/-- Dropping a domain leaves no entry for its names. -/
theorem changed_sound {domain : Str} (h : Sound s) (hdomain : Normal domain) (v : ℕ) :
    let s' : Live σ := { s with
      node := s.node.step site.lib site.env site.options (.invalidate domain 0 true)
      dropped := (v, domain) :: s.dropped }
    Dns.Holds (fun _ k m => Current s' k m) s'.node.state := by
  intro s'
  obtain ⟨hinv, -, hvals⟩ := Cache.removeWhere_spec h.entries.inv (fun e =>
    ((0 : UInt16) == 0 || e.message.question0.qtype == 0) &&
      (lower e.message.question0.name == lower (fqdn (trimSpace domain)) ||
        true && ('.' :: lower (fqdn (trimSpace domain))).isSuffixOf (lower e.message.question0.name)))
  refine ⟨hinv, fun e he => ?_⟩
  rw [show Cache.values s'.node.state.cache = _ from hvals] at he
  obtain ⟨hmem, hkept⟩ := List.mem_filter.1 he
  obtain ⟨hquery, hcurrent⟩ := h.entries.entries e hmem
  refine ⟨hquery, fun d hd hin => ?_⟩
  rcases List.mem_cons.1 hd with rfl | hd
  · -- the entry would have been dropped
    rw [Filtering.fqdn_name hdomain] at hkept
    simp only [inDomain] at hin
    simp [hin] at hkept
  · exact hcurrent d hd hin

/-- What a step of the thread `i` establishes; `Q` is about the phase after it. -/
def Goes (i : ℕ) (s s' : Live σ) (Q : Phase → Prop) : Prop := Sound s' ∧ Frame i s s' ∧ ∃ ph : Phase, ph.At s' i ∧ Q ph

section

variable {Q : Phase → Prop} (h : Sound s) (hph : ph.At s i)

include h hph

/-- A step that has nothing to do with the rules and takes no answer. -/
theorem Quiet.goes (ht : Quiet s t) (horigins : t.origins = s.origins)
    (hentries : Dns.Holds (fun _ k m => Current t k m) t.node.state) (hQ : Q ph) : Goes i s t Q :=
  ⟨ht.sound h hentries, ht.frame (fun _ hb => Or.inl (horigins ▸ hb)), ph, ht.phase hph, hQ⟩

theorem goes_same (hQ : Q ph) : Goes i s s Q := Quiet.goes h hph ⟨rfl, rfl, rfl, rfl, rfl, rfl⟩ rfl h.entries hQ

theorem goes_get {q : Msg} {now : ℕ} {cache : Cache} {found : Option Msg}
    (hget : s.node.state.cache.get q now = (cache, found)) (hQ : Q ph) :
    Goes i s { s.setCache cache with
      origins := if found.isSome then ⟨i, q, s.via ((Cache.key q).getD [])⟩ :: s.origins else s.origins } Q := by
  obtain ⟨hentries, hvia⟩ := get_sound h hget
  have hq : Quiet s { s.setCache cache with
      origins := if found.isSome then ⟨i, q, s.via ((Cache.key q).getD [])⟩ :: s.origins else s.origins } :=
    ⟨rfl, rfl, rfl, rfl, rfl, rfl⟩
  refine ⟨hq.sound h hentries, hq.frame fun b hb => ?_, ph, hq.phase hph, hQ⟩
  dsimp only at hb
  split at hb
  · rename_i hsome
    rcases List.mem_cons.1 hb with rfl | hb
    · exact Or.inr ⟨rfl, hvia hsome⟩
    · exact Or.inl hb
  · exact Or.inl hb

/-- The route is chosen from the table as it is. -/
theorem goes_select (q : Msg) (hQ : Q ph) :
    Goes i s { s.setWorld { s.world with asked := q :: s.world.asked } with
      chosen := Function.update s.chosen i s.version
      origins := ⟨i, q, s.version⟩ :: s.origins } Q := by
  have hq : Quiet s { s.setWorld { s.world with asked := q :: s.world.asked } with
      chosen := Function.update s.chosen i s.version
      origins := ⟨i, q, s.version⟩ :: s.origins } := ⟨rfl, rfl, rfl, rfl, rfl, rfl⟩
  refine ⟨hq.sound h ⟨h.entries.inv, h.entries.entries⟩, hq.frame fun b hb => ?_, ph, hq.phase hph, hQ⟩
  rcases List.mem_cons.1 hb with rfl | hb
  · exact Or.inr ⟨rfl, fun d hd _ => h.dropped d hd⟩
  · exact Or.inl hb

omit hph in
theorem goes_lock (hmu : s.mu = none) (hQ : Q .held) : Goes i s { s with mu := some i } Q := by
  refine ⟨⟨h.rules, h.published, h.dropped, h.entries⟩, ⟨?_, fun _ _ => rfl, fun _ _ => rfl, fun _ hd => hd,
    fun _ hb => Or.inl hb⟩, .held, rfl, hQ⟩
  intro j _ hj
  rw [hmu] at hj
  cases hj

omit h in
/-- A thread in one of these phases holds the mutex, so that no other thread does. -/
theorem not_held (hold : ph = .held ∨ (∃ rules, ph = .read rules) ∨ ∃ left, ph = .changed left) :
    s.mu = some i ∧ ∀ j, j ≠ i → s.mu ≠ some j := by
  have hmu : s.mu = some i := by
    rcases hold with rfl | ⟨rules, rfl⟩ | ⟨left, rfl⟩
    · exact hph
    · exact hph.1
    · exact hph.1
  refine ⟨hmu, fun j hji hj => ?_⟩
  rw [hmu, Option.some.injEq] at hj
  exact hji hj.symm

theorem goes_unlock
    (hQ : (ph = .held ∨ ∃ rules, ph = .read rules) ∧ Q .free ∨ ph = .changed [] ∧ Q .finished) :
    Goes i s { s with mu := none } Q := by
  have hother : ∀ j, j ≠ i → s.mu ≠ some j := by
    refine (not_held hph ?_).2
    rcases hQ with ⟨hq | hq, -⟩ | ⟨hq, -⟩
    · exact Or.inl hq
    · exact Or.inr (Or.inl hq)
    · exact Or.inr (Or.inr ⟨[], hq⟩)
  refine ⟨⟨h.rules, h.published, h.dropped, h.entries⟩, ⟨fun j hji hj => absurd hj (hother j hji), fun _ _ => rfl,
    fun _ _ => rfl, fun _ hd => hd, fun _ hb => Or.inl hb⟩, ?_⟩
  rcases hQ with ⟨-, hQ⟩ | ⟨rfl, hQ⟩
  · exact ⟨.free, trivial, hQ⟩
  · exact ⟨.finished, fun d hd => (hph.2 d hd).resolve_left (by simp), hQ⟩

/-- The new table gets the next number; the domains of the rule are still to be dropped. -/
theorem goes_publish {c : Change} {rules : List Rule} (hread : ph = .read rules)
    (hnormal : ∀ r ∈ c.apply rules, Normal r.domain) (hQ : Q (.changed (c.domains rules))) :
    Goes i s { s with
      node := s.node.step site.lib site.env site.options (.forwarding (c.apply s.rules))
      rules := c.apply s.rules
      version := s.version + 1
      published := Function.update s.published i (s.version + 1)
      domains := Function.update s.domains i (c.domains s.rules) } Q := by
  have hother := (not_held hph (Or.inr (Or.inl ⟨rules, hread⟩))).2
  subst hread
  obtain ⟨hmu, rfl⟩ := hph
  refine ⟨⟨hnormal, fun j => ?_, fun d hd => (h.dropped d hd).trans (Nat.le_succ _), ⟨h.entries.inv, h.entries.entries⟩⟩,
    ⟨fun j hji hj => absurd hj (hother j hji), fun j hji => Function.update_of_ne hji _ _,
      fun j hji => Function.update_of_ne hji _ _, fun _ hd => hd, fun _ hb => Or.inl hb⟩,
    .changed (c.domains s.rules), ⟨hmu, fun d hd => ?_⟩, hQ⟩
  · dsimp only
    by_cases hji : j = i
    · rw [hji, Function.update_self]
    · rw [Function.update_of_ne hji]
      exact (h.published j).trans (Nat.le_succ _)
  · dsimp only at hd
    rw [Function.update_self] at hd
    exact Or.inl hd

/-- The domain is dropped after the table of this thread. -/
theorem goes_changed {domain : Str} {left : List Str} (hchanged : ph = .changed left) (hdomain : Normal domain)
    (hQ : Q (.changed (left.filter (· ≠ domain)))) :
    Goes i s { s with
      node := s.node.step site.lib site.env site.options (.invalidate domain 0 true)
      dropped := (s.published i, domain) :: s.dropped } Q := by
  subst hchanged
  obtain ⟨hmu, hleft⟩ := hph
  refine ⟨⟨h.rules, h.published, fun d hd => ?_, changed_sound h hdomain _⟩,
    ⟨fun _ _ hj => ⟨hj, rfl⟩, fun _ _ => rfl, fun _ _ => rfl, fun _ hd => List.mem_cons_of_mem _ hd, fun _ hb => Or.inl hb⟩,
    .changed (left.filter (· ≠ domain)), ⟨hmu, fun d hd => ?_⟩, hQ⟩
  · rcases List.mem_cons.1 hd with rfl | hd
    · exact h.published i
    · exact h.dropped d hd
  · by_cases hsame : d = domain
    · exact Or.inr (hsame ▸ List.mem_cons_self)
    · refine (hleft d hd).imp (fun hmem => ?_) (fun hmem => List.mem_cons_of_mem _ hmem)
      exact List.mem_filter.2 ⟨hmem, by simpa using hsame⟩

/-- **One step** keeps the invariant, leaves the other threads alone, and its thread goes on as the protocol has it. -/
theorem perform_goes {op : Op σ} {x : Except Error ℤ} {Q : Ans op → Phase → Prop} {a : Ans op} (hQ : protocol op Q ph)
    (hfresh : ∀ q m, op = .put q m → ∀ d ∈ s.dropped, inDomain d.2 q.question0.name = true → d.1 ≤ s.chosen i)
    (hact : perform site i op x s = some (a, s')) : Goes i s s' (Q a) := by
  cases op with
  | event e =>
    simp only [perform] at hact
    split at hact
    · rename_i he
      cases hact
      exact Quiet.goes h hph ⟨rfl, rfl, rfl, rfl, rfl, rfl⟩ rfl (event_sound he h) (hQ ())
    · cases hact
  | err ctx =>
    cases hact
    exact goes_same h hph (hQ _)
  | resolver =>
    cases hact
    exact goes_same h hph (hQ _)
  | get q =>
    rcases hget : s.node.state.cache.get q (site.env.clock s.world.net) with ⟨cache, found⟩
    simp only [perform, hget, Option.some.injEq, Prod.mk.injEq] at hact
    obtain ⟨rfl, rfl⟩ := hact
    exact goes_get h hph hget (hQ found)
  | select q =>
    cases hact
    exact goes_select h hph q (hQ _)
  | exchange f ctx q =>
    rcases hres : f.resolve site.lib site.env ctx q s.world with ⟨out, w⟩
    simp only [perform, hres, Option.some.injEq, Prod.mk.injEq] at hact
    obtain ⟨rfl, rfl⟩ := hact
    refine Quiet.goes h hph ⟨rfl, rfl, rfl, rfl, rfl, rfl⟩ rfl ⟨h.entries.inv, h.entries.entries⟩ (hQ out fun m up hout => ?_)
    -- a forwarder returns the question it was asked
    obtain ⟨m₁, ad, -, -, rfl, -⟩ := (f.resolve_ok site.lib site.env ctx q s.world).2 m up (by rw [hres, hout])
    rfl
  | normalizeUpstreamTTL m =>
    cases hact
    exact goes_same h hph (hQ _ (normalizeUpstreamTTL_question _ m))
  | put q m =>
    have hentries := @put_sound _ site _ _ _ _ (site.env.clock s.world.net) h hQ.1 (hfresh q m rfl)
    cases hact
    exact Quiet.goes h hph ⟨rfl, rfl, rfl, rfl, rfl, rfl⟩ rfl hentries hQ.2
  | saveForwardRule rule =>
    cases x with
    | error e =>
      cases hact
      exact goes_same h hph (hQ _ (by simp))
    | ok id =>
      cases hact
      refine goes_same h hph (hQ _ ?_)
      rintro saved ⟨⟩
      split <;> rfl
  | deleteForwardRule id => cases x <;> cases hact <;> exact goes_same h hph (hQ _)
  | lock =>
    simp only [perform] at hact
    split at hact
    · rename_i hmu
      cases hact
      exact goes_lock h (Option.isNone_iff_eq_none.1 hmu) hQ.2
    · cases hact
  | rules =>
    cases hact
    obtain ⟨rfl, hQ⟩ := hQ
    exact @goes_same _ _ _ (.read s.rules) _ h ⟨hph, rfl⟩ (hQ s.rules h.rules)
  | unlock =>
    cases hact
    exact goes_unlock h hph hQ
  | publish c =>
    cases hact
    obtain ⟨rules, hread, hnormal, hQ⟩ := hQ
    exact goes_publish h hph hread hnormal hQ
  | changed domain =>
    cases hact
    obtain ⟨left, hleft, hdomain, hQ⟩ := hQ
    exact goes_changed h hph hleft hdomain hQ

end

end

/-! ### Every run -/

/-- A turn of a thread, with the invariant of the node and the phases of all threads. -/
theorem act_goes {w : Traffic σ} {i : ℕ} {x : Outside σ} {c : Call σ} {op : Op σ} {k : Ans op → Script σ Reply} {a : Ans op}
    {s' : Live σ} (hok : fresh w (.turn i x) = true) (hi : w.threads[i]? = some (c, .call op k)) (hI : Sound w.shared)
    (hT : Follows w.shared i (.call op k)) (hact : act site i op x w.shared = some (a, s')) :
    Sound s' ∧ Frame i w.shared s' ∧ Follows s' i (k a) := by
  obtain ⟨ph, hph, hobeys⟩ := hT
  have hmeet := meet_quiet (s := w.shared) x
  have hmeetOrigins : (w.shared.meet x).origins = w.shared.origins := by
    unfold Live.meet
    split <;> rfl
  have hmeetChosen : (w.shared.meet x).chosen = w.shared.chosen := by
    unfold Live.meet
    split <;> rfl
  obtain ⟨hsound, hframe, ph', hph', hobeys'⟩ := perform_goes (meet_sound x hI) (hmeet.phase hph) hobeys (by
    rintro q m rfl d hd hin
    rw [hmeet.dropped] at hd
    rw [hmeetChosen]
    simp only [fresh, hi, List.all_eq_true, Bool.or_eq_true, Bool.not_eq_true', decide_eq_true_eq] at hok
    rcases hok d hd with hout | hle
    · rw [hin] at hout
      cases hout
    · exact hle) hact
  refine ⟨hsound, ⟨?_, ?_, ?_, ?_, ?_⟩, ph', hph', hobeys'⟩
  · intro j hji hj
    have hmu := hframe.mu j hji (hmeet.mu.trans hj)
    exact ⟨hmu.1, hmu.2.trans hmeet.rules⟩
  · exact fun j hji => (hframe.published j hji).trans (congrFun hmeet.published j)
  · exact fun j hji => (hframe.domains j hji).trans (congrFun hmeet.domains j)
  · exact fun d hd => hframe.dropped d (hmeet.dropped ▸ hd)
  · intro b hb
    have horigin := hframe.origins b hb
    rw [hmeetOrigins, hmeet.dropped] at horigin
    exact horigin

/-- The invariant, kept together with any assertion about the histories that every step keeps. -/
theorem run_sound {J : Live σ → Prop} (hJ : ∀ i s s', Frame i s s' → J s → J s') {w w' : Traffic σ}
    {es : List (Traffic.Turn σ)} (hok : Meets (Traffic.step site) (fun w e => fresh w e = true) w es)
    (hrun : run (Traffic.step site) w es = some w')
    (h : w.Holds (fun s => Sound s ∧ J s) (fun s i _ p => Follows s i p)) :
    w'.Holds (fun s => Sound s ∧ J s) (fun s i _ p => Follows s i p) := by
  refine Pool.run_holds (fun _ _ c _ => ⟨.free, trivial, body_obeys _ c⟩) ?_ hok hrun h
  intro w i x c op k a s' hok hi hI hT hact
  obtain ⟨hsound, hframe, hfollows⟩ := act_goes hok hi hI.1 hT hact
  refine ⟨⟨hsound, hJ i _ _ hframe hI.2⟩, hfollows, ?_⟩
  rintro j d p hji ⟨ph, hph, hobeys⟩
  exact ⟨ph, hframe.phase hji hph, hobeys⟩

/-- A step takes answers for its own thread only. -/
theorem perform_thread {i : ℕ} {op : Op σ} {x : Except Error ℤ} {s s' : Live σ} {a : Ans op}
    (hact : perform site i op x s = some (a, s')) : ∀ b ∈ s'.origins, b ∈ s.origins ∨ b.thread = i := by
  intro b hb
  cases op with
  | event e =>
    simp only [perform] at hact
    split at hact <;> cases hact
    exact Or.inl hb
  | get q =>
    rcases hget : s.node.state.cache.get q (site.env.clock s.world.net) with ⟨cache, found⟩
    simp only [perform, hget, Option.some.injEq, Prod.mk.injEq] at hact
    obtain ⟨-, rfl⟩ := hact
    dsimp only at hb
    split at hb
    · exact (List.mem_cons.1 hb).symm.imp_right fun h => by rw [h]
    · exact Or.inl hb
  | select q =>
    cases hact
    exact (List.mem_cons.1 hb).symm.imp_right fun h => by rw [h]
  | lock =>
    simp only [perform] at hact
    split at hact <;> cases hact
    exact Or.inl hb
  | saveForwardRule rule => cases x <;> cases hact <;> exact Or.inl hb
  | deleteForwardRule id => cases x <;> cases hact <;> exact Or.inl hb
  | _ =>
    cases hact
    exact Or.inl hb

/-- Answers are taken by threads that have been started. -/
theorem origins_lt {w w' : Traffic σ} {es : List (Traffic.Turn σ)} (hrun : run (Traffic.step site) w es = some w')
    (h : ∀ a ∈ w.shared.origins, a.thread < w.threads.length) : ∀ a ∈ w'.shared.origins, a.thread < w'.threads.length := by
  refine run_keeps (P := fun w : Traffic σ => ∀ a ∈ w.shared.origins, a.thread < w.threads.length) ?_ hrun h
  intro w e w' h hstep
  cases e with
  | start c =>
    cases hstep
    intro a ha
    rw [List.length_append]
    exact Nat.lt_add_right _ (h a ha)
  | turn i x =>
    obtain ⟨c, op, k, a, s', hi, hact, rfl⟩ := Pool.step_turn hstep
    intro b hb
    rw [List.length_set]
    rcases perform_thread hact b hb with hb | rfl
    · refine h b ?_
      unfold Live.meet at hb
      split at hb <;> exact hb
    · exact (List.getElem?_eq_some_iff.1 hi).1

/-- The node starts with the invariant. -/
theorem start_sound {rules : List Rule} (hrules : ∀ r ∈ rules, Normal r.domain) (r : Resolver σ) (max : ℤ) (net : σ) :
    Sound (Traffic.start site r max net rules).shared where
  rules := hrules
  published _ := le_rfl
  dropped _ hd := by cases hd
  entries := ⟨Cache.Inv.new max, fun _ he => by cases he⟩

/-- **No route of an old table is used after a change.** In every run that stores no answer after the domain of its name was
dropped behind its back, each answer that a query takes, from the cache or from the route it chooses, for a name in the domain
of a rule that a save or a delete has changed and returned from before the query started, came through the table which that
save or delete has published, or a later one. -/
theorem no_stale_route (site : Site σ) (r : Resolver σ) (max : ℤ) (net : σ) (rules : List Rule)
    (hrules : ∀ r ∈ rules, Normal r.domain) (es₁ es₂ : List (Traffic.Turn σ)) (w₁ w : Traffic σ)
    (hok₁ : Meets (Traffic.step site) (fun w e => fresh w e = true) (Traffic.start site r max net rules) es₁)
    (hrun₁ : run (Traffic.step site) (Traffic.start site r max net rules) es₁ = some w₁)
    (hok₂ : Meets (Traffic.step site) (fun w e => fresh w e = true) w₁ es₂)
    (hrun₂ : run (Traffic.step site) w₁ es₂ = some w) (j : ℕ) (c : Call σ) (out : Reply)
    (hj : w₁.threads[j]? = some (c, .done out)) (hout : out.success = true) (domain : Str)
    (hdomain : domain ∈ w₁.shared.domains j) (a : Origin) (ha : a ∈ w.shared.origins)
    (hlate : w₁.threads.length ≤ a.thread) (hname : inDomain domain a.query.question0.name = true) :
    w₁.shared.published j ≤ a.via := by
  have hfirst : w₁.Holds (fun s => Sound s ∧ True) (fun s i _ p => Follows s i p) :=
    run_sound (J := fun _ => True) (fun _ _ _ _ _ => trivial) hok₁ hrun₁
      ⟨⟨start_sound hrules r max net, trivial⟩, fun i d p hi => by simp [Traffic.start] at hi⟩
  -- the save or delete is over, so its domain was dropped
  have hdropped : (w₁.shared.published j, domain) ∈ w₁.shared.dropped := by
    obtain ⟨ph, hph, hend⟩ := hfirst.threads j c _ hj
    rw [Prog.obeys_done] at hend
    rw [hend hout] at hph
    exact hph domain hdomain
  have hstarted := origins_lt hrun₁ (by simp [Traffic.start])
  -- from then on the answers of new threads are taken through this table or a later one
  have hsecond := run_sound
    (J := fun s => (w₁.shared.published j, domain) ∈ s.dropped ∧ ∀ b ∈ s.origins, w₁.threads.length ≤ b.thread →
      inDomain domain b.query.question0.name = true → w₁.shared.published j ≤ b.via) ?_ hok₂ hrun₂ ?_
  · exact hsecond.shared.2.2 a ha hlate hname
  · rintro i s s' hframe ⟨hmem, horigins⟩
    refine ⟨hframe.dropped _ hmem, fun b hb hthread hin => ?_⟩
    rcases hframe.origins b hb with hb | ⟨-, hnew⟩
    · exact horigins b hb hthread hin
    · exact hnew _ hmem hin
  · refine ⟨⟨hfirst.shared.1, hdropped, fun b hb hthread _ => ?_⟩, hfirst.threads⟩
    exact absurd (hstarted b hb) (Nat.not_lt.2 hthread)

/-! ### A query that is overtaken -/

namespace Overtaken

/-- Every upstream answers with its own address; the network never changes. -/
def env : Env Unit where
  clock _ := 0
  id _ := (7, ())
  exchange _ address req _ :=
    let ip := if address = "10.0.0.1:53".toList then [10, 0, 0, 1] else [9, 9, 9, 9]
    (.ok { setReply req with answer := [⟨⟨req.question0.name, classINET, 300⟩, .a ip⟩] }, ())

def home : Site Unit where
  lib := Miekg.ideal []
  env := env
  options := { retries := 0, newHealth := fun _ => ⟨fun _ s => (true, s), fun _ _ s => s⟩ }
  self := []

def resolver : Resolver Unit :=
  { blockMode := "NXDOMAIN", local' := none, filter := none
    forwarder := { rules := none, default := { upstreams := ["9.9.9.9:53".toList], retries := 0 } } }

def start : Traffic Unit := Traffic.start home resolver 10 () []

def query : Msg := setQuestion 1 "x.corp.".toList typeA

def asks : Call Unit := .resolve ⟨none, fun _ => none, 8⟩ query

/-- A rule that sends the domain to another upstream. -/
def creates : Call Unit := .create ⟨0, "corp".toList, ["10.0.0.1".toList], true, []⟩

def turns (i n : ℕ) : List (Traffic.Turn Unit) := List.replicate n (.turn i {})

/-- A query waits for the default upstream while the rule is created. -/
def before : List (Traffic.Turn Unit) := .start asks :: turns 0 8 ++ .start creates :: turns 1 6

/-- A query is over before the rule is created. -/
def quiet : List (Traffic.Turn Unit) := .start asks :: turns 0 9 ++ .start creates :: turns 1 6

/-- The addresses a query was answered with, when it is over. -/
def served (w : Traffic Unit) (i : ℕ) : Option (List RData) :=
  match w.threads[i]? with
  | some (_, .done (.resolved (.ok res))) => some (res.message.answer.map RR.data)
  | _ => none

def changed (w : Traffic Unit) (i : ℕ) : Bool :=
  match w.threads[i]? with
  | some (_, .done out) => out.success
  | _ => false

/-- An answer of a new thread for a name of the domain, taken through a table with `p`. -/
def takes (w₁ w : Traffic Unit) (p : ℕ → Bool) : Bool :=
  changed w₁ 1 && (w₁.shared.domains 1).contains "corp".toList &&
    w.shared.origins.any (fun a => w₁.threads.length ≤ a.thread && inDomain "corp".toList a.query.question0.name && p a.via)

theorem changed_eq_true {w : Traffic Unit} {i : ℕ} (h : changed w i = true) :
    ∃ c out, w.threads[i]? = some (c, .done out) ∧ out.success = true := by
  unfold changed at h
  split at h
  · rename_i c out hi
    exact ⟨c, out, hi, h⟩
  · cases h

theorem takes_eq_true {w₁ w : Traffic Unit} {p : ℕ → Bool} (h : takes w₁ w p = true) :
    changed w₁ 1 = true ∧ "corp".toList ∈ w₁.shared.domains 1 ∧ ∃ a ∈ w.shared.origins, w₁.threads.length ≤ a.thread ∧
      inDomain "corp".toList a.query.question0.name = true ∧ p a.via = true := by
  simp only [takes, Bool.and_eq_true, List.any_eq_true, decide_eq_true_eq, List.contains_iff_mem] at h
  obtain ⟨⟨hchanged, hdomain⟩, a, ha, ⟨hlate, hname⟩, hp⟩ := h
  exact ⟨hchanged, hdomain, a, ha, hlate, hname, hp⟩

end Overtaken

open Overtaken in
/-- A query that was over before the rule was created: the next one takes the new route. -/
theorem no_stale_route_quiet : ∃ w₁ w, run (Traffic.step home) start quiet = some w₁ ∧
    run (Traffic.step home) w₁ (.start asks :: turns 2 9) = some w ∧ served w 2 = some [.a [10, 0, 0, 1]] ∧
    ∃ a ∈ w.shared.origins, w₁.threads.length ≤ a.thread ∧ w₁.shared.published 1 ≤ a.via := by
  have hruns : ((run (Traffic.step home) start quiet).bind fun w₁ =>
      (run (Traffic.step home) w₁ (.start asks :: turns 2 9)).map fun w =>
        checks (Traffic.step home) fresh w₁ (.start asks :: turns 2 9) && takes w₁ w (fun _ => true) &&
          served w 2 == some [.a [10, 0, 0, 1]]) = some true := by decide +kernel
  have hok : checks (Traffic.step home) fresh start quiet = true := by decide +kernel
  obtain ⟨w₁, hw₁, hrest⟩ := Option.bind_eq_some_iff.1 hruns
  obtain ⟨w, hw, hall⟩ := Option.map_eq_some_iff.1 hrest
  simp only [Bool.and_eq_true, beq_iff_eq] at hall
  obtain ⟨⟨hok₂, htakes⟩, hserved⟩ := hall
  obtain ⟨hchanged, hdomain, a, ha, hlate, hname, -⟩ := takes_eq_true htakes
  obtain ⟨c, out, hj, hout⟩ := changed_eq_true hchanged
  refine ⟨w₁, w, hw₁, hw, hserved, a, ha, hlate, ?_⟩
  exact no_stale_route home resolver 10 () [] (by simp) _ _ w₁ w (meets_of_checks hok) hw₁ (meets_of_checks hok₂) hw 1 c out
    hj hout _ hdomain a ha hlate hname

open Overtaken in
/-- The answer of the default upstream is stored after the rule was created and the domain dropped: a query that starts then
is given it, through the table the node started with. -/
theorem stale_route : ∃ w₁ w, run (Traffic.step home) start before = some w₁ ∧
    run (Traffic.step home) w₁ (turns 0 1 ++ .start asks :: turns 2 5) = some w ∧
    (∃ c out, w₁.threads[1]? = some (c, .done out) ∧ out.success = true) ∧ "corp".toList ∈ w₁.shared.domains 1 ∧
    (∃ a ∈ w.shared.origins, w₁.threads.length ≤ a.thread ∧ inDomain "corp".toList a.query.question0.name = true ∧
      ¬ w₁.shared.published 1 ≤ a.via) ∧ served w 2 = some [.a [9, 9, 9, 9]] := by
  have hruns : ((run (Traffic.step home) start before).bind fun w₁ =>
      (run (Traffic.step home) w₁ (turns 0 1 ++ .start asks :: turns 2 5)).map fun w =>
        takes w₁ w (fun via => !decide (w₁.shared.published 1 ≤ via)) && served w 2 == some [.a [9, 9, 9, 9]]) =
      some true := by decide +kernel
  obtain ⟨w₁, hw₁, hrest⟩ := Option.bind_eq_some_iff.1 hruns
  obtain ⟨w, hw, hall⟩ := Option.map_eq_some_iff.1 hrest
  simp only [Bool.and_eq_true, beq_iff_eq] at hall
  obtain ⟨hchanged, hdomain, a, ha, hlate, hname, hold⟩ := takes_eq_true hall.1
  refine ⟨w₁, w, hw₁, hw, changed_eq_true hchanged, hdomain, ⟨a, ha, hlate, hname, ?_⟩, hall.2⟩
  simpa using hold

end Velora.Forwarding
