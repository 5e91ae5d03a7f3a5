import Velora.Cluster.Apply

/-!
# When applying a snapshot succeeds

With a repository that does not fail, each turn of the loops of `apply` succeeds exactly when `compile` accepts the mixture
it leads to, so that `apply` reaches the primary's zones exactly when all mixtures on its way are accepted and no zone to be
replaced is at the last revision (`apply_converges_iff`). The zones before and after are accepted, the mixtures need not be:
two zones that alias each other's names the one way before and the other way after never come through
(`apply_stuck_between_aliases`).
-/

namespace Velora.Cluster

open Velora.Lib Velora.Lib.Text Velora.Zones Velora.Dns

/-- The zones when the items `done` are applied: these, and the zones of the replica whose names they do not have. -/
def mixture (existing : List Zone) (done : List SnapshotZone) : List Zone :=
  done.map SnapshotZone.toZone ++ left existing done

section

variable {env : Env} {lib : Miekg} {existing others rest zs : List Zone} {done items : List SnapshotZone}
  {item : SnapshotZone} {n : Node} {x : Choice lib} {z old : Zone}

/-! ### Acceptance of a mixture -/

theorem idsOk_toZone (item : SnapshotZone) : IdsOk item.toZone.records :=
  idsOk_new (by simp [SnapshotZone.toZone, toRecords])

/-- The zones are accepted when the mixture is. -/
theorem Mixed.accepts_iff (hm : Mixed env zs rest others done) (hn : AllNormal zs) (hids : ∀ z ∈ zs, IdsOk z.records) :
    Accepts lib zs ↔ Accepts lib (done.map SnapshotZone.toZone ++ (rest ++ others)) := by
  refine accepts_similar hm.similar hn hids fun z hz => ?_
  rcases List.mem_append.1 hz with hz | hz
  · obtain ⟨item, -, rfl⟩ := List.mem_map.1 hz
    exact idsOk_toZone item
  · exact hids z (hm.kept z hz)

/-- The zones with one more are accepted when the mixture with it is. -/
theorem Mixed.accepts_snoc_iff (hm : Mixed env zs rest others done) (hn : AllNormal zs) (hids : ∀ z ∈ zs, IdsOk z.records)
    (hw : Wanted env item) :
    Accepts lib (zs ++ [item.toZone]) ↔ Accepts lib ((done ++ [item]).map SnapshotZone.toZone ++ (rest ++ others)) := by
  have hsim : Zones.Similar (zs ++ [item.toZone]) ((done ++ [item]).map SnapshotZone.toZone ++ (rest ++ others)) := by
    have hperm : ((done ++ [item]).map SnapshotZone.toZone ++ (rest ++ others)).Perm
        (done.map SnapshotZone.toZone ++ (rest ++ others) ++ [item.toZone]) := by
      rw [List.map_append, List.append_assoc, List.append_assoc]
      exact (List.perm_append_comm).append_left _
    have hadd := Multiset.Rel.add hm.similar (Multiset.rel_refl_of_refl_on (m := ([item.toZone] : List Zone))
      fun z _ => Zone.Alike.refl z)
    unfold Zones.Similar
    rw [Multiset.coe_eq_coe.2 hperm, ← Multiset.coe_add, ← Multiset.coe_add]
    exact hadd
  refine accepts_similar hsim (fun z hz => ?_) (fun z hz => ?_) (fun z hz => ?_)
  · rcases List.mem_append.1 hz with hz | hz
    · exact hn z hz
    · rw [List.mem_singleton.1 hz]
      exact hw.normal
  · rcases List.mem_append.1 hz with hz | hz
    · exact hids z hz
    · rw [List.mem_singleton.1 hz]
      exact idsOk_toZone item
  · rcases List.mem_append.1 hz with hz | hz
    · obtain ⟨item', -, rfl⟩ := List.mem_map.1 hz
      exact idsOk_toZone item'
    · exact hids z (hm.kept z hz)

/-! ### Runs that succeed -/

/-- The program comes to its end without an error. -/
def Succeeds (env : Env) (x : Choice lib) (p : Prog Op Ans (Option Err)) (n : Node) : Prop :=
  ∃ n', p.exec (act env lib) x n = some (none, n')

/-- A call of the zone service and what comes after it. -/
theorem succeeds_zones {c : Zones.Call} {k : Except Zones.Err Zone → Prog Op Ans (Option Err)} {A P : Prop}
    (hx : x.fails = none) (herr : ∀ e, ∃ e', k (.error e) = .done (some e'))
    (hA : (∃ saved st', (c.body lib).exec Zones.act none n.store = some (.ok saved, st')) ↔ A)
    (hP : ∀ saved n', act env lib (.zones c) x n = some (.ok saved, n') → (Succeeds env x (k (.ok saved)) n' ↔ P)) :
    Succeeds env x (Prog.call (.zones c) k) n ↔ A ∧ P := by
  obtain ⟨r, st', hexec⟩ := exec_body (c.body lib) none n.store
  have hact : act env lib (.zones c) x n =
      some (r, { n with store := st', dirty := n.dirty || r.toOption.isSome }) := by
    simp only [act, hx, hexec, Option.map_some]
  unfold Succeeds
  rw [Prog.exec_call, hact, Option.bind_some]
  cases r with
  | error e =>
    obtain ⟨e', he'⟩ := herr e
    have hno : ¬ A := by
      rw [← hA]
      rintro ⟨saved, st'', h⟩
      rw [hexec] at h
      cases h
    simp [he', hno]
  | ok saved =>
    have hyes : A := hA.1 ⟨saved, st', hexec⟩
    rw [and_iff_right hyes]
    exact hP saved _ hact

/-- **When the loop over the items succeeds.** -/
theorem succeeds_applyItems_iff (hx : x.fails = none) (hp : Pending env done items)
    (hex : ∀ z ∈ existing, secondary z = false) (hnames : (existing.map Zone.name).Nodup)
    (h : Halfway env lib existing others done n.store) :
    Succeeds env x (applyItems env existing items) n ↔
      (∀ i < items.length, Accepts lib ((done ++ items.take (i + 1)).map SnapshotZone.toZone ++
        (left existing (done ++ items.take (i + 1)) ++ others))) ∧
      ∀ item ∈ items, ∀ z ∈ existing, z.name = item.name → snapshotZone env z ≠ item → z.revision ≠ maxUint32 := by
  induction items generalizing done n with
  | nil => simp [applyItems, Succeeds]
  | cons item items ih =>
    obtain ⟨hw, hfresh, hp'⟩ := hp.head
    obtain ⟨hnone, hsome⟩ := @find_left existing _ _ hfresh
    have hlist := h.consistent.list_normal
    have hids := h.consistent.list_idsOk
    -- the condition at the first item and at the others
    have hsplit : ∀ Q : SnapshotZone → Prop, ((∀ i < (item :: items).length,
        Accepts lib ((done ++ (item :: items).take (i + 1)).map SnapshotZone.toZone ++
          (left existing (done ++ (item :: items).take (i + 1)) ++ others))) ∧ ∀ item' ∈ item :: items, Q item') ↔
        (Accepts lib ((done ++ [item]).map SnapshotZone.toZone ++ (left existing (done ++ [item]) ++ others)) ∧ Q item) ∧
          (∀ i < items.length, Accepts lib ((done ++ [item] ++ items.take (i + 1)).map SnapshotZone.toZone ++
            (left existing (done ++ [item] ++ items.take (i + 1)) ++ others))) ∧ ∀ item' ∈ items, Q item' := by
      intro Q
      rw [List.length_cons, Nat.forall_lt_succ_left, List.forall_mem_cons]
      simp only [List.take_succ_cons, List.take_zero, zero_add, List.append_assoc, List.singleton_append]
      tauto
    rw [hsplit]
    rw [applyItems]
    split
    · rename_i hfind
      have hleft : left existing (done ++ [item]) = left existing done := by
        rw [left_snoc]
        exact List.filter_eq_self.2 fun z hz => by simpa using hnone hfind z hz
      simp only [Prog.ask_bind, Prog.pure_eq]
      refine succeeds_zones hx (fun e => ⟨_, rfl⟩) ?_ (fun saved n' hact => ?_)
      · rw [show (Zones.Call.create item.toZone).body lib = Zones.create lib item.toZone from rfl,
          create_succeeds_iff h.consistent hw.normal rfl rfl (by simp [SnapshotZone.toZone, toRecords]),
          h.mixed.accepts_snoc_iff hlist hids hw, hleft]
        refine (and_iff_left fun z hz hn => ?_).symm
        simpa [hn] using List.find?_eq_none.1 hfind z hz
      · obtain ⟨-, hout, -⟩ := act_zones h.consistent hact
        rcases hout with ⟨e, he, -⟩ | ⟨z, hz, heff⟩
        · cases he
        · cases hz
          exact ih hp' (h.create hw (hnone hfind) heff)
    · rename_i old hfind
      obtain ⟨hold, hname⟩ := hsome old hfind
      have hin := (mem_left.1 hold).1
      have hsec := hex old hin
      have hpublished := h.mixed.kept old (List.mem_append_left _ hold)
      have honly : (∀ z ∈ existing, z.name = item.name → snapshotZone env z ≠ item → z.revision ≠ maxUint32) ↔
          (snapshotZone env old ≠ item → old.revision ≠ maxUint32) := by
        refine ⟨fun hz => hz old hin hname, fun hz z hzin hzn => ?_⟩
        rw [List.inj_on_of_nodup_map hnames hzin hin (hzn.trans hname.symm)]
        exact hz
      rw [honly]
      split
      · rename_i hsame
        rw [sameZone_iff hsec hw.back] at hsame
        have hhalf := h.same hold hname hsec hsame
        rw [ih hp' hhalf, ← hhalf.mixed.accepts_iff hlist hids]
        have hacc : Accepts lib n.store.published.list := h.consistent.accepted
        simp [hacc, hsame]
      · rename_i hsame
        rw [sameZone_iff hsec hw.back] at hsame
        have hlook : n.store.published.byID.lookup old.id = some old := by
          rw [h.consistent.lookup_eq]
          exact (Keyed.find?_eq_some h.consistent.list_ids).2 ⟨hpublished, rfl⟩
        have hdrop := h.mixed.drop h.consistent.list_ids hold
        have hsub : ∀ z ∈ n.store.published.list.filter (fun z => z.id ≠ old.id), z ∈ n.store.published.list :=
          fun z hz => List.mem_of_mem_filter hz
        simp only [Prog.ask_bind, Prog.pure_eq]
        refine succeeds_zones hx (fun e => ⟨_, rfl⟩) ?_ (fun saved n' hact => ?_)
        · rw [show (Zones.Call.update old.id old.revision item.toZone).body lib =
              Zones.update lib old.id old.revision item.toZone from rfl,
            update_succeeds_iff h.consistent hlook rfl hw.normal (by simp [SnapshotZone.toZone, toRecords]),
            hdrop.accepts_snoc_iff (fun z hz => hlist z (hsub z hz)) (fun z hz => hids z (hsub z hz)) hw, left_snoc, hname]
          simp [hsame, and_comm]
        · obtain ⟨-, hout, -⟩ := act_zones h.consistent hact
          rcases hout with ⟨e, he, -⟩ | ⟨z, hz, heff⟩
          · cases he
          · cases hz
            exact ih hp' (h.update hw hold hname heff)

/-- **When the loop over the surplus zones succeeds.** -/
theorem succeeds_deleteZones_iff (hx : x.fails = none) (h : Consistent lib n.store)
    (hm : Mixed env n.store.published.list zs others done) :
    Succeeds env x (deleteZones zs) n ↔
      ∀ i < zs.length, Accepts lib (done.map SnapshotZone.toZone ++ (zs.drop (i + 1) ++ others)) := by
  induction zs generalizing n with
  | nil => simp [deleteZones, Succeeds]
  | cons z zs ih =>
    have hpublished := hm.kept z (by simp)
    have hlook : n.store.published.byID.lookup z.id = some z := by
      rw [h.lookup_eq]
      exact (Keyed.find?_eq_some h.list_ids).2 ⟨hpublished, rfl⟩
    have hdrop := @Mixed.drop _ _ _ _ _ z hm h.list_ids (by simp)
    rw [hm.rest_tail] at hdrop
    have hsub : ∀ y ∈ n.store.published.list.filter (fun y => y.id ≠ z.id), y ∈ n.store.published.list :=
      fun y hy => List.mem_of_mem_filter hy
    rw [List.length_cons, Nat.forall_lt_succ_left]
    simp only [deleteZones, Prog.ask_bind, Prog.pure_eq, zero_add, List.drop_succ_cons, List.drop_zero]
    refine succeeds_zones hx (fun e => ⟨_, rfl⟩) ?_ (fun saved n' hact => ?_)
    · rw [show (Zones.Call.delete z.id z.revision).body lib = Zones.delete lib z.id z.revision from rfl,
        delete_succeeds_iff h hlook rfl]
      exact hdrop.accepts_iff (fun y hy => h.list_normal y (hsub y hy)) (fun y hy => h.list_idsOk y (hsub y hy))
    · obtain ⟨-, hout, hcons⟩ := act_zones h hact
      rcases hout with ⟨e, he, -⟩ | ⟨y, hy, heff⟩
      · cases he
      · cases hy
        cases heff with
        | delete hold hrev hremoved hseq => exact ih hcons (hm.removed h hremoved)

/-! ### The whole of it -/

/-- The zones of the replica that the snapshot does not have. -/
def surplus (existing : List Zone) (snapshot : Snapshot) : List Zone := left existing snapshot.zones

/-- Every mixture on the way of `apply` is accepted, and every zone that has to be replaced can be. -/
structure Passable (env : Env) (lib : Miekg) (order : Order) (replica : List Zone) (snapshot : Snapshot) : Prop where
  items : ∀ i < snapshot.zones.length, Accepts lib (mixture replica (snapshot.zones.take (i + 1)))
  surplus : ∀ i < (surplus replica snapshot).length,
    Accepts lib (snapshot.zones.map SnapshotZone.toZone ++ (order.seq (surplus replica snapshot)).drop (i + 1))
  revisions : ∀ item ∈ snapshot.zones, ∀ z ∈ replica, z.name = item.name → snapshotZone env z ≠ item →
    z.revision ≠ maxUint32

theorem succeeds_apply_iff (primary : Primary lib) (h : Consistent lib n.store)
    (hsec : ∀ z ∈ n.store.published.list, secondary z = false) (order : Order) {snapshot : Snapshot}
    (hsnap : snapshot.zones = snapshotZones env primary.published.list) :
    Succeeds env ({ order := order } : Choice lib) (apply env snapshot) n ↔
      Passable env lib order n.store.published.list snapshot := by
  have hown : own n.store.published.list = n.store.published.list :=
    List.filter_eq_self.2 fun z hz => by simp [hsec z hz]
  have hforeign : foreign n.store.published.list = [] := List.filter_eq_nil_iff.2 fun z hz => by simp [hsec z hz]
  have hstart := @halfway_start env _ _ h
  rw [hown, hforeign] at hstart
  have hpending := hsnap ▸ pending_of_primary env primary
  have hitems := succeeds_applyItems_iff (x := ({ order := order } : Choice lib)) rfl hpending hsec h.list_names hstart
  simp only [List.nil_append, List.append_nil] at hitems
  -- the second loop, once the first has succeeded
  have hrest : ∀ n₁, (applyItems env n.store.published.list snapshot.zones).exec (act env lib) { order := order } n =
      some (none, n₁) →
      (Succeeds env ({ order := order } : Choice lib) (deleteZones (order.seq (surplus n.store.published.list snapshot))) n₁ ↔
        ∀ i < (surplus n.store.published.list snapshot).length, Accepts lib (snapshot.zones.map SnapshotZone.toZone ++
          (order.seq (surplus n.store.published.list snapshot)).drop (i + 1))) := by
    intro n₁ hexec
    obtain ⟨-, hcons, hdone⟩ := Prog.exec_of_wp (wp_applyItems hpending hsec hstart) hexec
    have hm := (hdone rfl).mixed.perm_rest (order.perm _).symm
    have hdelete := succeeds_deleteZones_iff (x := ({ order := order } : Choice lib)) rfl hcons hm
    simp only [List.nil_append, List.append_nil] at hdelete
    rw [← (order.perm (surplus n.store.published.list snapshot)).length_eq]
    exact hdelete
  have happly : Succeeds env ({ order := order } : Choice lib) (apply env snapshot) n ↔
      ∃ n₁, (applyItems env n.store.published.list snapshot.zones).exec (act env lib) { order := order } n =
        some (none, n₁) ∧
        Succeeds env ({ order := order } : Choice lib)
          (deleteZones (order.seq (surplus n.store.published.list snapshot))) n₁ := by
    unfold Succeeds apply
    simp only [Prog.ask_bind, Prog.exec_call, act, Option.bind_some, Prog.exec_bind]
    rw [show n.store.published.list.filter (fun z => !secondary z) = n.store.published.list from hown]
    cases hexec : (applyItems env n.store.published.list snapshot.zones).exec (act env lib) { order := order } n with
    | none => simp
    | some r =>
      obtain ⟨err, n₁⟩ := r
      cases err with
      | some e => simp
      | none =>
        simp only [Option.bind_some, Option.some.injEq, Prod.mk.injEq, true_and, exists_eq_left', Prog.exec_call, act]
        rfl
  rw [happly]
  constructor
  · rintro ⟨n₁, hexec, hdel⟩
    obtain ⟨hmix, hrev⟩ := hitems.1 ⟨n₁, hexec⟩
    exact ⟨hmix, (hrest n₁ hexec).1 hdel, hrev⟩
  · rintro ⟨hmix, hdel, hrev⟩
    obtain ⟨n₁, hexec⟩ := hitems.2 ⟨hmix, hrev⟩
    exact ⟨n₁, hexec, (hrest n₁ hexec).2 hdel⟩

/-- **`apply` reaches the zones of the primary exactly when it can pass through every mixture.** The repository does not fail,
and `order` is the order in which the loop over the surplus zones takes them. -/
theorem apply_converges_iff (env : Env) (lib : Miekg) (primary : Primary lib) (n : Node) (h : Consistent lib n.store)
    (hsec : ∀ z ∈ n.store.published.list, secondary z = false) (order : Order) (clusterID : Str)
    (identity : SnapshotIdentity) (now : ℕ) :
    let snapshot := buildSnapshot env primary.published.list clusterID identity now
    (∃ n', (apply env snapshot).exec (act env lib) { order := order } n = some (none, n') ∧
      (buildSnapshot env n'.store.published.list clusterID identity now).revision = snapshot.revision) ↔
    Passable env lib order n.store.published.list snapshot := by
  intro snapshot
  have hzones : snapshot.zones = snapshotZones env primary.published.list := rfl
  rw [← succeeds_apply_iff primary h hsec order hzones]
  constructor
  · rintro ⟨n', hexec, -⟩
    exact ⟨n', hexec⟩
  · rintro ⟨n', hexec⟩
    obtain ⟨-, -, hdone⟩ := Prog.exec_of_wp (wp_apply primary hzones h) hexec
    refine ⟨n', hexec, ?_⟩
    simp only [buildSnapshot]
    rw [hdone rfl, hzones]
    rfl

end

/-! ### Two zones and an alias between them -/

namespace Swap

def lib : Miekg := .ideal []

/-- A zone `a.` or `b.` in normal form with one record. -/
def zone (id : ℤ) (name : String) (r : Record) : Zone where
  id := id
  name := name.toList
  primaryNS := ("ns." ++ name).toList
  contact := ("hostmaster." ++ name).toList
  revision := 1
  records := [r]

def cname (id : ℤ) (name target : String) : Record := ⟨id, name.toList, "CNAME".toList, 300, target.toList, 0⟩

def host (id : ℤ) (name : String) : Record := ⟨id, name.toList, "A".toList, 300, "192.0.2.1".toList, 0⟩

/-- `x.a.` is an alias of `y.b.`. -/
def forward : List Zone := [zone 1 "a." (cname 1 "x.a." "y.b."), zone 2 "b." (host 2 "y.b.")]

/-- `y.b.` is an alias of `x.a.`. -/
def backward : List Zone := [zone 1 "a." (host 1 "x.a."), zone 2 "b." (cname 2 "y.b." "x.a.")]

def repo (zones : List Zone) : Repo := ⟨zones, 2, 2⟩

theorem sound_backward : (repo backward).Sound := by
  have hnormal : ∀ z ∈ (repo backward).zones, NormalZone z := by decide +kernel
  exact ⟨by decide +kernel, by decide +kernel, by decide +kernel, by decide +kernel, by decide +kernel, by decide +kernel,
    by decide +kernel, hnormal⟩

def order : Order := ⟨id, fun _ => .refl _⟩

/-- `x.a.` has an address, and there is no other zone. -/
def single : List Zone := [zone 1 "a." (host 1 "x.a.")]

/-- A primary with these zones. -/
def primary (zones : List Zone) (h : (compile lib zones).toOption.isSome = true) : Primary lib where
  all := zones
  published := (compile lib zones).toOption.get h
  accepted := Loops.eq_ok_of_toOption (by simp)

theorem all_accepted : ((compile lib single).toOption.isSome = true ∧ (compile lib forward).toOption.isSome = true) ∧
    (start lib (repo backward)).toOption.isSome = true := by decide +kernel

theorem accepted_single : (compile lib single).toOption.isSome = true := all_accepted.1.1

theorem accepted_forward : (compile lib forward).toOption.isSome = true := all_accepted.1.2

theorem started : (start lib (repo backward)).toOption.isSome = true := all_accepted.2

/-- A replica with the zones `backward`. -/
def node : Node where
  state := { role := .replica, nodeID := "1".toList }
  store := ⟨(start lib (repo backward)).toOption.get started, repo backward, 0⟩

theorem consistent : Consistent lib node.store :=
  start_consistent sound_backward (Loops.eq_ok_of_toOption (by simp))

/-- What `apply` does there with the zones of a primary: its error, and whether the revision is then that of the
snapshot. -/
def outcome (primary : Primary lib) : Option (Option Err × Bool) :=
  ((apply .plain (buildSnapshot .plain primary.published.list [] {} 0)).exec (act .plain lib) { order := order } node).map
    (fun r => (r.1, (buildSnapshot .plain r.2.store.published.list [] {} 0).revision =
      (buildSnapshot .plain primary.published.list [] {} 0).revision))

/-- None of the zones of the replica is secondary; it takes `single` over and stops in the middle of `forward`. -/
theorem outcomes : (∀ z ∈ node.store.published.list, secondary z = false) ∧
    outcome (primary single accepted_single) = some (none, true) ∧
    outcome (primary forward accepted_forward) =
      some (some (.plain "zone a.: invalid zone: CNAME loop or chain longer than 16 names"), false) := by
  decide +kernel

theorem own_backward : ∀ z ∈ node.store.published.list, secondary z = false := outcomes.1

theorem of_outcome {primary : Primary lib} {e : Option Err} {b : Bool} (h : outcome primary = some (e, b)) :
    ∃ n', (apply .plain (buildSnapshot .plain primary.published.list [] {} 0)).exec (act .plain lib) { order := order } node =
      some (e, n') ∧ ((buildSnapshot .plain n'.store.published.list [] {} 0).revision =
        (buildSnapshot .plain primary.published.list [] {} 0).revision ↔ b = true) := by
  obtain ⟨⟨e', n'⟩, hexec, hparts⟩ := Option.map_eq_some_iff.1 h
  rw [Prod.mk.injEq] at hparts
  obtain ⟨rfl, rfl⟩ := hparts
  exact ⟨n', hexec, by simp⟩

end Swap

open Swap in
/-- A replica that has a zone too much. -/
theorem apply_converges_single :
    Passable .plain Swap.lib Swap.order node.store.published.list
      (buildSnapshot .plain (primary single accepted_single).published.list [] {} 0) := by
  obtain ⟨n', hexec, hrev⟩ := of_outcome outcomes.2.1
  exact (apply_converges_iff .plain Swap.lib (primary single accepted_single) node consistent own_backward Swap.order [] {}
    0).1 ⟨n', hexec, hrev.2 rfl⟩

open Swap in
/-- The alias turns around: `a.` is replaced while `b.` still has its old alias, and `compile` refuses the loop. -/
theorem apply_stuck_between_aliases :
    Consistent Swap.lib node.store ∧ (∀ z ∈ node.store.published.list, secondary z = false) ∧ ∃ n',
      (apply .plain (buildSnapshot .plain (primary forward accepted_forward).published.list [] {} 0)).exec
        (act .plain Swap.lib) { order := Swap.order } node =
          some (some (.plain "zone a.: invalid zone: CNAME loop or chain longer than 16 names"), n') ∧
      (buildSnapshot .plain n'.store.published.list [] {} 0).revision ≠
        (buildSnapshot .plain (primary forward accepted_forward).published.list [] {} 0).revision := by
  obtain ⟨n', hexec, hrev⟩ := of_outcome outcomes.2.2
  exact ⟨consistent, own_backward, n', hexec, fun heq => absurd (hrev.1 heq) (by simp)⟩

end Velora.Cluster
