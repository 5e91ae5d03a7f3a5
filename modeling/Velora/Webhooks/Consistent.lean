import Velora.Webhooks.Service

/-!
# The webhook service stays consistent

After every sequence of requests, results of deliveries and restarts, whichever of them the store lets fail, the hooks in
memory are those of the table, there are no more than sixteen, no two names are the same to `strings.EqualFold`, each hook is
as `normalize` leaves it, and its status is that of the attempts since it was loaded or made (`webhooks_sound`).
-/

namespace Velora.Webhooks

open Velora.Lib Velora.Lib.Text Velora.Lib.Ip Velora.Lib.Loops
open Velora.Zones (byteLen)
open Velora.Filtering (URL fields)

/-! ### What is normalized -/

theorem dropWhile_of_isPrefix {α : Type} {p : α → Bool} {l t : List α} (hl : l.dropWhile p = l) (ht : t <+: l) :
    t.dropWhile p = t := by
  cases t with
  | nil => rfl
  | cons c t =>
    obtain ⟨u, rfl⟩ := ht
    refine List.dropWhile_cons_of_neg fun hc => ?_
    rw [List.cons_append, List.dropWhile_cons_of_pos hc] at hl
    have hlen := congrArg List.length hl
    have hle := (List.dropWhile_suffix p (l := t ++ u)).length_le
    rw [List.length_cons] at hlen
    omega

theorem trimSpaces_trimSpaces (s : Str) : trimSpaces (trimSpaces s) = trimSpaces s := by
  have hfirst : ((s.dropWhile isSpaceRune).reverse.dropWhile isSpaceRune).reverse <+: s.dropWhile isSpaceRune := by
    rw [← List.reverse_suffix, List.reverse_reverse]
    exact List.dropWhile_suffix _
  unfold trimSpaces
  rw [dropWhile_of_isPrefix (List.dropWhile_idempotent isSpaceRune s) hfirst, List.reverse_reverse, List.dropWhile_idempotent]

/-- A hook that may be stored. -/
structure Normal (env : Env) (h : Hook) : Prop where
  name : trimSpaces h.name = h.name ∧ ¬ (h.name = [] ∨ byteLen h.name > maxNameLength ∨ h.name.any breaks)
  url : trimSpaces h.url = h.url ∧ validateURL env.parse env.fold h.url h.allowPrivate = .ok ()
  token : ¬ (byteLen h.token > maxTokenLength ∨ h.token.any (fun c => breaks c || c == ' '))
  minSeverity : severityRank h.minSeverity ≠ none
  events : h.events.Nodup ∧ ∀ e ∈ h.events, e ∈ eventTypes

theorem normalizeEvents_ok {l out events : List Str} (h : normalizeEvents l out = .ok events) (hnodup : out.Nodup)
    (hknown : ∀ e ∈ out, e ∈ eventTypes) : events.Nodup ∧ ∀ e ∈ events, e ∈ eventTypes := by
  induction l generalizing out with
  | nil =>
    cases h
    exact ⟨hnodup, hknown⟩
  | cons e rest ih =>
    rw [normalizeEvents] at h
    split at h
    · cases h
    rename_i he
    rw [not_not] at he
    split at h
    · exact ih h hnodup hknown
    · rename_i hnew
      refine ih h ?_ ?_
      · rw [List.nodup_append]
        refine ⟨hnodup, List.nodup_singleton e, fun a ha b hb => ?_⟩
        rw [List.mem_singleton.1 hb]
        rintro rfl
        exact hnew ha
      · intro a ha
        rcases List.mem_append.1 ha with ha | ha
        · exact hknown a ha
        · rw [List.mem_singleton.1 ha]
          exact he

theorem normalizeEvents_fixed {l out : List Str} (hnodup : (out ++ l).Nodup) (hknown : ∀ e ∈ l, e ∈ eventTypes) :
    normalizeEvents l out = .ok (out ++ l) := by
  induction l generalizing out with
  | nil => rw [normalizeEvents, List.append_nil]
  | cons e rest ih =>
    have hnew : e ∉ out := fun he => (List.nodup_append.1 hnodup).2.2 e he e List.mem_cons_self rfl
    rw [normalizeEvents, if_neg (not_not.2 (hknown e List.mem_cons_self)), if_neg hnew,
      ih (by simpa using hnodup) fun x hx => hknown x (List.mem_cons_of_mem e hx)]
    simp

/-- What `normalize` leaves may be stored, and it touches nothing but the four fields. -/
theorem normalize_normal {env : Env} {h h' : Hook} (hn : normalize env h = .ok h') :
    Normal env h' ∧ ∃ name url minSeverity events,
      h' = { h with name := name, url := url, minSeverity := minSeverity, events := events } := by
  unfold normalize at hn
  dsimp only at hn
  split at hn
  · cases hn
  rename_i hname
  split at hn
  · cases hn
  rename_i hurl
  split at hn
  · cases hn
  rename_i htoken
  split at hn
  · cases hn
  rename_i hseverity
  split at hn
  · cases hn
  rename_i events hevents
  cases hn
  exact ⟨⟨⟨trimSpaces_trimSpaces h.name, hname⟩, ⟨trimSpaces_trimSpaces h.url, hurl⟩, htoken, hseverity,
    normalizeEvents_ok hevents List.nodup_nil (by simp)⟩, _, _, _, _, rfl⟩

/-- **What may be stored** is what `normalize` leaves as it is. -/
theorem normal_iff {env : Env} {h : Hook} : Normal env h ↔ normalize env h = .ok h := by
  constructor
  · intro hn
    have hempty : h.minSeverity ≠ [] := by
      intro hnil
      exact hn.minSeverity (by rw [hnil]; rfl)
    unfold normalize
    dsimp only
    rw [hn.name.1, if_neg hn.name.2, hn.url.1, hn.url.2]
    dsimp only
    rw [if_neg hn.token, withDefault, if_neg hempty, if_neg hn.minSeverity, normalizeEvents_fixed (by simpa using hn.events.1) hn.events.2]
    rfl
  · intro hn
    exact (normalize_normal hn).1

/-! ### What is stored -/

/-- Words are read back from their row. -/
theorem fields_words {words : List Str} (h : ∀ w ∈ words, w ≠ [] ∧ ∀ c ∈ w, isSpaceRune c = false) :
    fields (List.intercalate [' '] words) = words := by
  unfold fields
  induction words with
  | nil => rfl
  | cons w rest ih =>
    obtain ⟨hne, hw⟩ := h w List.mem_cons_self
    cases rest with
    | nil =>
      rw [List.intercalate_singleton, List.splitOnP_eq_singleton hw]
      simp [hne]
    | cons w' rest =>
      rw [List.intercalate_cons_cons, List.append_assoc, List.singleton_append,
        List.splitOnP_append_cons_of_forall_mem hw ' ' (by decide), List.filter_cons_of_pos (by simpa using hne),
        ih fun x hx => h x (List.mem_cons_of_mem w hx)]

theorem eventTypes_word : ∀ e ∈ eventTypes, e ≠ [] ∧ ∀ c ∈ e, isSpaceRune c = false := by
  have hall : eventTypes.all (fun e => !e.isEmpty && e.all (fun c => !isSpaceRune c)) = true := by decide +kernel
  intro e he
  have h := List.all_eq_true.1 hall e he
  rw [Bool.and_eq_true, List.all_eq_true] at h
  exact ⟨by simpa using h.1, fun c hc => by simpa using h.2 c hc⟩

/-- A hook without a status. -/
def Hook.untold (h : Hook) : Hook :=
  { h with lastDeliveryAt := none, lastStatus := [], lastError := [], consecutiveFailures := 0 }

/-- A normal hook comes back from its row, but for its status. -/
theorem row_hook {env : Env} {h : Hook} (hn : Normal env h) : h.row.hook = { h.untold with hasToken := false } := by
  have hfields : fields (List.intercalate [' '] h.events) = h.events :=
    fields_words fun e he => eventTypes_word e (hn.events.2 e he)
  unfold Hook.row Row.hook Hook.untold
  dsimp only
  rw [hfields]

/-- A save that succeeds in the table: a new row under a new ID, or one in the place of the old one. -/
theorem saveWebhook_ok {db db' : Repo} {hook saved : Hook} (h : db.saveWebhook hook = .ok (saved, db')) :
    (hook.id = 0 ∧ saved = { hook with id := db.seq + 1 } ∧ db'.seq = db.seq + 1 ∧ db'.rows = db.rows ++ [saved.row]) ∨
    (hook.id ≠ 0 ∧ saved = hook ∧ db'.seq = db.seq ∧
      db'.rows.Perm (hook.row :: db.rows.filter (fun r => r.id ≠ hook.id))) := by
  rw [Repo.saveWebhook] at h
  split at h
  · cases h
  split at h
  · rename_i hnew
    split at h
    · cases h
    · cases h
      exact Or.inl ⟨hnew, rfl, rfl, rfl⟩
  · rename_i hold
    split at h
    · cases h
    · rename_i i hfind
      split at h
      · cases h
      · cases h
        obtain ⟨hlt, hid, -⟩ := List.findIdx?_eq_some_iff_getElem.1 hfind
        have hid : db.rows[i].id = hook.id := of_decide_eq_true hid
        have herase : db.rows.filter (fun r => r.id ≠ hook.id) = db.rows.eraseIdx i := by
          rw [← Keyed.filter_ne_eq_eraseIdx db.table.ids (List.getElem?_eq_getElem hlt), hid]
        rw [herase]
        exact Or.inr ⟨hold, rfl, rfl, List.set_perm_cons_eraseIdx hlt hook.row⟩

/-! ### The hooks in memory -/

/-- What holds of the hooks in memory. -/
structure Valid (env : Env) (hooks : List Hook) : Prop where
  normal : ∀ h ∈ hooks, Normal env h
  tokens : ∀ h ∈ hooks, h.hasToken = decide (h.token ≠ [])
  names : (hooks.map (fun h => env.folded h.name)).Nodup
  size : hooks.length ≤ maxHooks

theorem Valid.perm {env : Env} {hooks hooks' : List Hook} (h : Valid env hooks) (hp : hooks'.Perm hooks) :
    Valid env hooks' where
  normal x hx := h.normal x (hp.mem_iff.1 hx)
  tokens x hx := h.tokens x (hp.mem_iff.1 hx)
  names := (hp.map _).nodup_iff.2 h.names
  size := hp.length_eq.trans_le h.size

theorem Valid.sublist {env : Env} {hooks rest : List Hook} (h : Valid env hooks) (hs : rest.Sublist hooks) :
    Valid env rest where
  normal x hx := h.normal x (hs.subset hx)
  tokens x hx := h.tokens x (hs.subset hx)
  names := (hs.map _).nodup h.names
  size := hs.length_le.trans h.size

theorem Valid.cons {env : Env} {hooks : List Hook} (h : Valid env hooks) {saved : Hook} (hnormal : Normal env saved)
    (htoken : saved.hasToken = decide (saved.token ≠ []))
    (hname : ∀ x ∈ hooks, env.folded x.name ≠ env.folded saved.name) (hsize : hooks.length < maxHooks) :
    Valid env (saved :: hooks) where
  normal x hx := by
    rcases List.mem_cons.1 hx with rfl | hx
    · exact hnormal
    · exact h.normal x hx
  tokens x hx := by
    rcases List.mem_cons.1 hx with rfl | hx
    · exact htoken
    · exact h.tokens x hx
  names := by
    rw [List.map_cons, List.nodup_cons]
    refine ⟨fun hmem => ?_, h.names⟩
    obtain ⟨x, hx, heq⟩ := List.mem_map.1 hmem
    exact hname x hx heq
  size := by
    rw [List.length_cons]
    omega

/-- A change of the status of some hooks. -/
theorem Valid.map {env : Env} {hooks : List Hook} (h : Valid env hooks) {f : Hook → Hook}
    (hf : ∀ x, ∃ y, f x = x.withStatus y) : Valid env (hooks.map f) where
  normal x hx := by
    obtain ⟨y, hy, rfl⟩ := List.mem_map.1 hx
    obtain ⟨z, hz⟩ := hf y
    rw [hz]
    exact ⟨(h.normal y hy).name, (h.normal y hy).url, (h.normal y hy).token, (h.normal y hy).minSeverity, (h.normal y hy).events⟩
  tokens x hx := by
    obtain ⟨y, hy, rfl⟩ := List.mem_map.1 hx
    obtain ⟨z, hz⟩ := hf y
    rw [hz]
    exact h.tokens y hy
  names := by
    rw [List.map_map]
    refine (List.map_congr_left fun y _ => ?_).symm ▸ h.names
    obtain ⟨z, hz⟩ := hf y
    show env.folded (f y).name = env.folded y.name
    rw [hz]
    rfl
  size := by
    rw [List.length_map]
    exact h.size

/-- The hooks in memory are valid, and those of the table. -/
structure Consistent (env : Env) (s : Service) : Prop where
  valid : Valid env s.hooks
  stored : (s.hooks.map Hook.row).Perm s.repo.rows

theorem Consistent.ids {env : Env} {s : Service} (h : Consistent env s) : (s.hooks.map Hook.id).Nodup := by
  have hids := (h.stored.map Row.id).nodup_iff.2 s.repo.table.ids
  rwa [List.map_map] at hids

theorem Consistent.range {env : Env} {s : Service} (h : Consistent env s) {x : Hook} (hx : x ∈ s.hooks) :
    0 < x.id ∧ x.id ≤ s.repo.seq :=
  s.repo.table.range x.row (h.stored.mem_iff.1 (List.mem_map_of_mem hx))

theorem told_withStatus (h : Hook) (o : Outcome) : h.told o = h.withStatus (h.told o) := by
  unfold Hook.told Hook.withStatus
  split <;> rfl

theorem indexOf_eq_some {hooks : List Hook} {id : ℤ} {i : ℕ} (h : indexOf hooks id = some i) :
    id ≠ 0 ∧ ∃ old, hooks[i]? = some old ∧ old.id = id := by
  rw [indexOf] at h
  split at h
  · cases h
  rename_i hne
  obtain ⟨hlt, hid, -⟩ := List.findIdx?_eq_some_iff_getElem.1 h
  exact ⟨hne, hooks[i], List.getElem?_eq_getElem hlt, of_decide_eq_true hid⟩

theorem withToken_eq (hooks : List Hook) (hook : Hook) (keepToken : Bool) (index : Option ℕ) :
    ∃ token, withToken hooks hook keepToken index = { hook with token := token } := by
  unfold withToken
  split
  · exact ⟨hook.token, rfl⟩
  · split
    · exact ⟨_, rfl⟩
    · exact ⟨hook.token, rfl⟩

/-- **A save** that succeeds: the hook that is stored is normal and keeps the status it came with, none of the others has its
name, and it is put at the end or takes the place of an old one. -/
theorem save_ok {env : Env} {s s' : Service} {storeFails : Option Err} {hook r : Hook} {keepToken : Bool}
    (hs : s.save env storeFails hook keepToken = (.ok r, s')) :
    ∃ normalized stored, Normal env normalized ∧ normalized.id = hook.id ∧ normalized.withStatus hook = normalized ∧
      s.repo.saveWebhook normalized = .ok (stored, s'.repo) ∧
      (∀ x ∈ others s.hooks (indexOf s.hooks hook.id), env.folded x.name ≠ env.folded normalized.name) ∧
      (hook.id ≠ 0 → indexOf s.hooks hook.id ≠ none) ∧ (hook.id = 0 → s.hooks.length < maxHooks) ∧
      place s.hooks stored.marked (indexOf s.hooks hook.id) = (s'.hooks, r) := by
  unfold Service.save at hs
  split at hs
  · cases hs
  rename_i hfound
  split at hs
  · cases hs
  rename_i hroom
  split at hs
  · cases hs
  rename_i normalized hnorm
  split at hs
  · cases hs
  rename_i hclash
  split at hs
  · cases hs
  split at hs
  · cases hs
  rename_i stored repo hstore
  cases hs
  obtain ⟨token, htoken⟩ := withToken_eq s.hooks hook keepToken (indexOf s.hooks hook.id)
  rw [htoken] at hnorm
  obtain ⟨hnormal, name, url, minSeverity, events, rfl⟩ := normalize_normal hnorm
  refine ⟨_, stored, hnormal, rfl, rfl, hstore, fun x hx heq => ?_, fun hne hnone => hfound ⟨hne, hnone⟩, fun hnew => ?_, rfl⟩
  · exact List.find?_eq_none.1 hclash x hx (decide_eq_true heq)
  · by_contra hfull
    exact hroom ⟨hnew, not_lt.1 hfull⟩

/-- A save fails and changes nothing, or succeeds. -/
theorem save_cases (env : Env) (s : Service) (storeFails : Option Err) (hook : Hook) (keepToken : Bool) :
    (∃ e, s.save env storeFails hook keepToken = (.error e, s)) ∨
      ∃ r s', s.save env storeFails hook keepToken = (.ok r, s') := by
  unfold Service.save
  split
  · exact Or.inl ⟨_, rfl⟩
  split
  · exact Or.inl ⟨_, rfl⟩
  split
  · exact Or.inl ⟨_, rfl⟩
  split
  · exact Or.inl ⟨_, rfl⟩
  split
  · exact Or.inl ⟨_, rfl⟩
  split
  · exact Or.inl ⟨_, rfl⟩
  · exact Or.inr ⟨_, _, rfl⟩

/-- The hook under the ID of a save that succeeds, beside those of the other IDs. -/
theorem save_holds {env : Env} {s s' : Service} (h : Consistent env s) {storeFails : Option Err} {hook r : Hook}
    {keepToken : Bool} (hs : s.save env storeFails hook keepToken = (.ok r, s')) :
    s'.hooks.Perm (r :: s.hooks.filter (fun x => x.id ≠ hook.id)) ∧
      s'.repo.rows.Perm (r.row :: s.repo.rows.filter (fun x => x.id ≠ hook.id)) ∧ s.repo.seq ≤ s'.repo.seq ∧
      (hook.id = 0 ∧ r.withStatus hook = r ∧ r.id = s.repo.seq + 1 ∧ s'.repo.seq = s.repo.seq + 1 ∨
        ∃ old ∈ s.hooks, old.id = hook.id ∧ r.id = hook.id ∧ r.withStatus old = r) ∧
      Normal env r ∧ r.hasToken = decide (r.token ≠ []) ∧
      (s.hooks.filter (fun x => x.id ≠ hook.id)).length < maxHooks ∧
      ∀ x ∈ s.hooks.filter (fun x => x.id ≠ hook.id), env.folded x.name ≠ env.folded r.name := by
  obtain ⟨n, stored, hnormal, hid, hstatus, hstore, hnames, hfound, hroom, hplace⟩ := save_ok hs
  rcases saveWebhook_ok hstore with ⟨hnew, rfl, hseq, hrows⟩ | ⟨hold, rfl, hseq, hrows⟩
  · -- a new hook
    rw [hid] at hnew
    have hall : s.hooks.filter (fun x => x.id ≠ hook.id) = s.hooks := by
      rw [hnew, List.filter_eq_self]
      exact fun x hx => decide_eq_true (h.range hx).1.ne'
    have hrowsall : s.repo.rows.filter (fun x => x.id ≠ hook.id) = s.repo.rows := by
      rw [hnew, List.filter_eq_self]
      exact fun x hx => decide_eq_true (s.repo.table.range x hx).1.ne'
    have hindex : indexOf s.hooks hook.id = none := if_pos hnew
    rw [hindex] at hplace hnames
    obtain ⟨hhooks, hr⟩ := Prod.mk.inj hplace
    rw [hall, hrowsall, ← hhooks, ← hr, hrows, hseq]
    refine ⟨List.perm_append_singleton _ _, List.perm_append_singleton _ _, by omega, Or.inl ⟨hnew, ?_, rfl, rfl⟩, ?_, rfl,
      hroom hnew, hnames⟩
    · rw [← hstatus]
      rfl
    · exact ⟨hnormal.name, hnormal.url, hnormal.token, hnormal.minSeverity, hnormal.events⟩
  · -- an old one is replaced
    rw [hid] at hold hrows
    obtain ⟨i, hi⟩ := Option.ne_none_iff_exists'.1 (hfound hold)
    obtain ⟨-, old, hget, holdid⟩ := indexOf_eq_some hi
    have hlt := (List.getElem?_eq_some_iff.1 hget).1
    have hothers : s.hooks.filter (fun x => x.id ≠ hook.id) = s.hooks.eraseIdx i := by
      rw [← Keyed.filter_ne_eq_eraseIdx h.ids hget, holdid]
    rw [hi] at hplace hnames
    have hset : place s.hooks stored.marked (some i) =
        (s.hooks.set i (stored.marked.withStatus old),
          stored.marked.withStatus old) := by
      simp [place, hget]
    rw [hset] at hplace
    obtain ⟨hhooks, hr⟩ := Prod.mk.inj hplace
    rw [hothers, ← hhooks, ← hr, hseq]
    refine ⟨List.set_perm_cons_eraseIdx hlt _, hrows, le_refl _, Or.inr ⟨old, List.mem_of_getElem? hget, holdid, hid, rfl⟩, ?_, rfl,
      ?_, hnames⟩
    · exact ⟨hnormal.name, hnormal.url, hnormal.token, hnormal.minSeverity, hnormal.events⟩
    · have hlen := List.length_eraseIdx_of_lt hlt
      have hsize := h.valid.size
      omega

theorem save_consistent {env : Env} {s s' : Service} (h : Consistent env s) {storeFails : Option Err} {hook r : Hook}
    {keepToken : Bool} (hs : s.save env storeFails hook keepToken = (.ok r, s')) : Consistent env s' := by
  obtain ⟨hhooks, hrows, -, -, hnormal, htoken, hsize, hnames⟩ := save_holds h hs
  refine ⟨((h.valid.sublist List.filter_sublist).cons hnormal htoken hnames hsize).perm hhooks, ?_⟩
  have hmap := hhooks.map Hook.row
  rw [List.map_cons] at hmap
  refine (hmap.trans (List.Perm.cons _ ?_)).trans hrows.symm
  have hfilter := h.stored.filter (fun x => x.id ≠ hook.id)
  rwa [List.filter_map] at hfilter

theorem delete_cases {env : Env} {s : Service} (h : Consistent env s) (storeFails : Option Err) (id : ℤ) :
    (∃ e, s.delete storeFails id = (.error e, s)) ∨
      ∃ s', s.delete storeFails id = (.ok none, s') ∧ Consistent env s' ∧ s'.repo.seq = s.repo.seq ∧
        s'.hooks.Sublist s.hooks := by
  rw [Service.delete]
  cases hfind : s.hooks.findIdx? (fun x => x.id = id) with
  | none => exact .inl ⟨_, rfl⟩
  | some i =>
    cases storeFails with
    | some e => exact .inl ⟨e, rfl⟩
    | none =>
      dsimp only
      rw [Repo.deleteWebhook]
      split
      · exact .inl ⟨_, rfl⟩
      · rename_i repo hrepo
        split at hrepo
        · cases hrepo
          obtain ⟨hlt, hid, -⟩ := List.findIdx?_eq_some_iff_getElem.1 hfind
          have hid : s.hooks[i].id = id := of_decide_eq_true hid
          have herase : s.hooks.eraseIdx i = s.hooks.filter (fun x => x.id ≠ id) := by
            rw [← Keyed.filter_ne_eq_eraseIdx h.ids (List.getElem?_eq_getElem hlt), hid]
          refine .inr ⟨_, rfl, ⟨h.valid.sublist (List.eraseIdx_sublist _ _), ?_⟩, rfl, List.eraseIdx_sublist _ _⟩
          dsimp only
          rw [herase]
          have hfilter := h.stored.filter (fun x => x.id ≠ id)
          rwa [List.filter_map] at hfilter
        · cases hrepo

theorem record_consistent {env : Env} {s : Service} (h : Consistent env s) (id : ℤ) (o : Outcome) :
    Consistent env { s with hooks := record s.hooks id o } where
  valid := by
    refine h.valid.map fun x => ?_
    split
    · exact ⟨_, told_withStatus x o⟩
    · exact ⟨x, rfl⟩
  stored := by
    have hrow : (record s.hooks id o).map Hook.row = s.hooks.map Hook.row := by
      rw [record, List.map_map]
      refine List.map_congr_left fun x _ => ?_
      show (if x.id = id then x.told o else x).row = x.row
      split
      · rw [told_withStatus]
        rfl
      · rfl
    dsimp only
    rw [hrow]
    exact h.stored

/-- **A restart** finds the hooks it left, without their status. -/
theorem start_consistent {env : Env} {s : Service} (h : Consistent env s) :
    ∃ s', start s.repo = .ok s' ∧ Consistent env s' ∧ s'.repo = s.repo ∧ (s'.hooks).Perm (s.hooks.map Hook.untold) := by
  have hperm : (s.repo.rows.insertionSort (fun a b => a.key ≤ b.key)).Perm s.repo.rows := List.perm_insertionSort _ _
  have hlen : (s.repo.rows.insertionSort (fun a b => a.key ≤ b.key)).length ≤ maxHooks := by
    rw [hperm.length_eq, ← h.stored.length_eq, List.length_map]
    exact h.valid.size
  have htake : (s.repo.rows.insertionSort (fun a b => a.key ≤ b.key)).take (maxHooks + 1) =
      s.repo.rows.insertionSort (fun a b => a.key ≤ b.key) := List.take_of_length_le (by omega)
  have hload : s.repo.loadWebhooks = .ok ((s.repo.rows.insertionSort (fun a b => a.key ≤ b.key)).map Row.hook) := by
    rw [Repo.loadWebhooks, htake, if_neg (by omega)]
  have hback : ∀ x ∈ s.hooks, x.row.hook.marked = x.untold := by
    intro x hx
    rw [row_hook (h.valid.normal x hx), Hook.untold, Hook.marked, h.valid.tokens x hx]
  have hhooks : (((s.repo.rows.insertionSort (fun a b => a.key ≤ b.key)).map Row.hook).map Hook.marked).Perm
      (s.hooks.map Hook.untold) := by
    refine (((hperm.trans h.stored.symm).map Row.hook).map _).trans ?_
    rw [List.map_map, List.map_map]
    exact .of_eq (List.map_congr_left fun x hx => hback x hx)
  have huntold : Valid env (s.hooks.map Hook.untold) := h.valid.map fun x => ⟨x.untold, rfl⟩
  have hstart : start s.repo = .ok ⟨((s.repo.rows.insertionSort (fun a b => a.key ≤ b.key)).map Row.hook).map Hook.marked, s.repo⟩ := by
    rw [start, hload]
  refine ⟨_, hstart, ⟨huntold.perm hhooks, ?_⟩, rfl, hhooks⟩
  refine (hhooks.map Hook.row).trans ?_
  rw [List.map_map]
  exact h.stored

/-! ### The status of a hook -/

/-- What a hook tells of its deliveries. -/
structure Status where
  lastDeliveryAt : Option ℕ
  lastStatus : Str
  lastError : List UInt8
  consecutiveFailures : ℕ

def Hook.status (h : Hook) : Status := ⟨h.lastDeliveryAt, h.lastStatus, h.lastError, h.consecutiveFailures⟩

/-- What a hook should tell after some attempts, the last one first: when that was and how it ended, and how many of the last
ones have failed in a row. -/
def Status.of : List Outcome → Status
  | [] => ⟨none, [], [], 0⟩
  | o :: before =>
    ⟨some o.at', if o.err.isSome then "failed".toList else "HTTP ".toList ++ decimal o.status, (o.err.getD []).take 200,
      ((o :: before).takeWhile (fun o => o.err.isSome)).length⟩

theorem Status.of_cons {h : Hook} {o : Outcome} {before : List Outcome} (hs : h.status = Status.of before) :
    (h.told o).status = Status.of (o :: before) := by
  have hfailures : h.consecutiveFailures = (before.takeWhile (fun o => o.err.isSome)).length := by
    have hcount := congrArg Status.consecutiveFailures hs
    cases before with
    | nil => exact hcount
    | cons _ _ => exact hcount
  unfold Hook.told Status.of
  cases herr : o.err with
  | none => simp [Hook.status, herr]
  | some e => simp [Hook.status, herr, hfailures]

/-- The attempts the hook with an ID was told of since it was loaded or made, the last one first. -/
abbrev Log := ℤ → List Outcome

/-- The log after an operation. -/
def Service.hear (env : Env) (s : Service) (storeFails : Option Err) (log : Log) : Call → Log
  | .record id o => if s.hooks.any (fun h => h.id = id) then Function.update log id (o :: log id) else log
  | .restart => if (s.step env storeFails .restart).1.isOk then fun _ => [] else log
  | _ => log

/-- The log has the attempts of the hooks, and none under an ID that is not drawn yet. -/
structure Heard (s : Service) (log : Log) : Prop where
  status : ∀ h ∈ s.hooks, h.status = Status.of (log h.id)
  fresh : ∀ id, s.repo.seq < id → log id = []

/-- A sequence of operations, each with what the store does. -/
def run (env : Env) (w : Service × Log) (calls : List (Call × Option Err)) : Service × Log :=
  calls.foldl (fun w c => ((w.1.step env c.2 c.1).2, w.1.hear env c.2 w.2 c.1)) w

/-! ### Runs -/

theorem Heard.save {env : Env} {s s' : Service} {log : Log} (hl : Heard s log) (h : Consistent env s) {storeFails : Option Err}
    {hook r : Hook} {keepToken : Bool} (hnew : hook.id = 0 → hook.untold = hook)
    (hs : s.save env storeFails hook keepToken = (.ok r, s')) : Heard s' log := by
  obtain ⟨hhooks, -, hle, hplace, -⟩ := save_holds h hs
  refine ⟨fun x hx => ?_, fun id hid => hl.fresh id (by omega)⟩
  rcases List.mem_cons.1 (hhooks.mem_iff.1 hx) with rfl | hx
  · rcases hplace with ⟨hzero, hstatus, hid, -⟩ | ⟨old, hold, holdid, hid, hstatus⟩
    · rw [hl.fresh x.id (by omega), ← hstatus, ← hnew hzero]
      rfl
    · rw [hid, ← holdid, ← hl.status old hold, ← hstatus]
      rfl
  · exact hl.status x (List.mem_of_mem_filter hx)

theorem Heard.record {s : Service} {log : Log} (hl : Heard s log) (hrange : ∀ x ∈ s.hooks, x.id ≤ s.repo.seq) (id : ℤ)
    (o : Outcome) : Heard { s with hooks := record s.hooks id o }
      (if s.hooks.any (fun h => h.id = id) then Function.update log id (o :: log id) else log) := by
  have hhook : ∀ x ∈ Webhooks.record s.hooks id o, ∃ y ∈ s.hooks, x = (if y.id = id then y.told o else y) ∧ x.id = y.id := by
    intro x hx
    obtain ⟨y, hy, rfl⟩ := List.mem_map.1 hx
    refine ⟨y, hy, rfl, ?_⟩
    split
    · rw [told_withStatus]
      rfl
    · rfl
  by_cases hany : s.hooks.any (fun h => h.id = id) = true
  · rw [if_pos hany]
    obtain ⟨z, hz, hzid⟩ := List.any_eq_true.1 hany
    have hidle : id ≤ s.repo.seq := (of_decide_eq_true hzid : z.id = id) ▸ hrange z hz
    refine ⟨fun x hx => ?_, fun i hi => ?_⟩
    · obtain ⟨y, hy, hxy, hxid⟩ := hhook x hx
      rw [hxid, hxy]
      by_cases hyid : y.id = id
      · rw [if_pos hyid, ← hyid, Function.update_self]
        exact Status.of_cons (hl.status y hy)
      · rw [if_neg hyid, Function.update_of_ne hyid]
        exact hl.status y hy
    · have hgt : s.repo.seq < i := hi
      rw [Function.update_of_ne (by omega)]
      exact hl.fresh i hi
  · rw [if_neg hany]
    refine ⟨fun x hx => ?_, hl.fresh⟩
    obtain ⟨y, hy, hxy, hxid⟩ := hhook x hx
    have hyid : ¬ y.id = id := fun heq => hany (List.any_eq_true.2 ⟨y, hy, decide_eq_true heq⟩)
    rw [hxid, hxy, if_neg hyid]
    exact hl.status y hy

/-- **One operation** fails and changes nothing, or leaves the service consistent and the log true. -/
theorem step_cases {env : Env} {s : Service} {log : Log} (h : Consistent env s) (hl : Heard s log) (storeFails : Option Err)
    (c : Call) :
    ((∃ e, s.step env storeFails c = (.error e, s)) ∧ s.hear env storeFails log c = log) ∨
      ∃ r s', s.step env storeFails c = (.ok r, s') ∧ Consistent env s' ∧ Heard s' (s.hear env storeFails log c) := by
  have save : ∀ hook keepToken, (hook.id = 0 → hook.untold = hook) →
      (∃ e, (s.save env storeFails hook keepToken).map (Except.map some) id = (.error e, s)) ∨
        ∃ r s', (s.save env storeFails hook keepToken).map (Except.map some) id = (.ok r, s') ∧ Consistent env s' ∧
          Heard s' log := by
    intro hook keepToken hnew
    rcases save_cases env s storeFails hook keepToken with ⟨e, he⟩ | ⟨r, s', hs⟩
    · exact .inl ⟨e, by rw [he]; rfl⟩
    · exact .inr ⟨some r, s', by rw [hs]; rfl, save_consistent h hs, hl.save h hnew hs⟩
  cases c with
  | create input => exact (save (input.hook 0) false fun _ => rfl).imp (fun he => ⟨he, rfl⟩) id
  | update id' input =>
    rw [Service.step]
    split
    · exact .inl ⟨⟨_, rfl⟩, rfl⟩
    · exact (save (input.hook id') input.token.isNone fun _ => rfl).imp (fun he => ⟨he, rfl⟩) id
  | delete id' =>
    rcases delete_cases h storeFails id' with ⟨e, he⟩ | ⟨s', hs, hc, hseq, hsub⟩
    · exact .inl ⟨⟨e, he⟩, rfl⟩
    · exact .inr ⟨none, s', hs, hc, fun x hx => hl.status x (hsub.subset hx), fun i hi => hl.fresh i (hseq ▸ hi)⟩
  | record id' o =>
    exact .inr ⟨none, _, rfl, record_consistent h id' o, hl.record (fun x hx => (h.range hx).2) id' o⟩
  | restart =>
    cases storeFails with
    | some e => exact .inl ⟨⟨e, rfl⟩, rfl⟩
    | none =>
      obtain ⟨s', hs, hc, hrepo, hhooks⟩ := start_consistent h
      have hstep : s.step env none .restart = (.ok none, s') := by
        rw [Service.step, hs]
      have hlog : s.hear env none log .restart = fun _ => [] := by
        rw [Service.hear, hstep]
        rfl
      refine .inr ⟨none, s', hstep, hc, ?_⟩
      rw [hlog]
      refine ⟨fun x hx => ?_, fun i hi => rfl⟩
      obtain ⟨y, hy, rfl⟩ := List.mem_map.1 (hhooks.mem_iff.1 hx)
      rfl

theorem run_consistent {env : Env} {w : Service × Log} (h : Consistent env w.1) (hl : Heard w.1 w.2)
    (calls : List (Call × Option Err)) : Consistent env (run env w calls).1 ∧ Heard (run env w calls).1 (run env w calls).2 := by
  induction calls generalizing w with
  | nil => exact ⟨h, hl⟩
  | cons c calls ih =>
    have hone : Consistent env (w.1.step env c.2 c.1).2 ∧ Heard (w.1.step env c.2 c.1).2 (w.1.hear env c.2 w.2 c.1) := by
      rcases step_cases h hl c.2 c.1 with ⟨⟨e, he⟩, hlog⟩ | ⟨r, s', hs, hc, hh⟩
      · rw [he, hlog]
        exact ⟨h, hl⟩
      · rw [hs]
        exact ⟨hc, hh⟩
    exact ih hone.1 hone.2

/-- What holds of the service at any time. -/
structure Sound (env : Env) (s : Service) (log : Log) : Prop where
  size : s.hooks.length ≤ maxHooks
  ids : (s.hooks.map Hook.id).Nodup ∧ ∀ h ∈ s.hooks, 0 < h.id
  names : (s.hooks.map (fun h => env.folded h.name)).Nodup
  /-- a hook that is saved again is saved as it is -/
  normal : ∀ h ∈ s.hooks, normalize env h = .ok h
  tokens : ∀ h ∈ s.hooks, h.hasToken = decide (h.token ≠ [])
  stored : (s.hooks.map Hook.row).Perm s.repo.rows
  status : ∀ h ∈ s.hooks, h.status = Status.of (log h.id)
  failed : ∀ c storeFails e, (s.step env storeFails c).1 = .error e → (s.step env storeFails c).2 = s
  restart : ∃ s', start s.repo = .ok s' ∧ s'.hooks.Perm (s.hooks.map Hook.untold)

theorem Consistent.sound {env : Env} {s : Service} {log : Log} (h : Consistent env s) (hl : Heard s log) : Sound env s log where
  size := h.valid.size
  ids := ⟨h.ids, fun x hx => (h.range hx).1⟩
  names := h.valid.names
  normal x hx := normal_iff.1 (h.valid.normal x hx)
  tokens := h.valid.tokens
  stored := h.stored
  status := hl.status
  failed c storeFails e he := by
    rcases step_cases h hl storeFails c with ⟨⟨e', he'⟩, -⟩ | ⟨r, s', hs, -⟩
    · rw [he']
    · rw [hs] at he
      cases he
  restart := by
    obtain ⟨s', hs, -, -, hhooks⟩ := start_consistent h
    exact ⟨s', hs, hhooks⟩

/-- **The webhook service.** From an empty database on it is sound after every sequence of requests, results of deliveries and
restarts, whatever the store lets fail. -/
theorem webhooks_sound (env : Env) (calls : List (Call × Option Err)) :
    Sound env (run env (⟨[], Repo.new⟩, fun _ => []) calls).1 (run env (⟨[], Repo.new⟩, fun _ => []) calls).2 := by
  have hstart : Consistent env ⟨[], Repo.new⟩ := ⟨⟨by simp, by simp, List.nodup_nil, Nat.zero_le _⟩, List.Perm.nil⟩
  obtain ⟨hc, hh⟩ := run_consistent (w := (⟨[], Repo.new⟩, fun _ => [])) hstart ⟨by simp, fun _ _ => rfl⟩ calls
  exact hc.sound hh

end Velora.Webhooks
