import Velora.Zones.Snapshot

/-!
# Snapshots of the primary's zones

`internal/cluster/cluster.go`: what a replica pulls from the primary. A snapshot carries the contents of the zones that are
not secondary ones, without their IDs and revisions and in a fixed order, and a revision that is a hash of these contents.
`sort.Slice` is a parameter (`Sorter`) since it is not stable and records are not compared in all their fields; the hash is
a parameter without collisions (`Hash`).
-/

namespace Velora.Cluster

open Velora.Lib Velora.Lib.Text Velora.Zones

/-- `Protocol`. -/
def protocol : ℕ := 1

structure SnapshotRecord where
  name : Str
  type : Str
  ttl : UInt32
  value : Str
  priority : UInt16
  deriving DecidableEq

structure SnapshotZone where
  name : Str
  primaryNS : Str
  contact : Str
  records : List SnapshotRecord
  deriving DecidableEq

structure SnapshotIdentity where
  nodeID : Str := []
  name : Str := []
  version : Str := []
  deriving DecidableEq

structure Snapshot where
  protocol : ℕ
  clusterID : Str
  revision : Str
  generatedAt : ℕ
  zones : List SnapshotZone
  primary : SnapshotIdentity
  deriving DecidableEq

/-! ### Order and hash -/

/-- The order of the records of a zone: by name, type and value. -/
def SnapshotRecord.less (a b : SnapshotRecord) : Bool :=
  if a.name ≠ b.name then a.name < b.name
  else if a.type ≠ b.type then a.type < b.type
  else a.value < b.value

/-- The records stand in order. -/
def InOrder (rs : List SnapshotRecord) : Prop := rs.Pairwise (fun a b => b.less a = false)

/-- `sort.Slice` with `less`: it brings records into an order, which is not fixed for records that only differ in their TTL
or priority, and leaves records that stand in order as they are. -/
structure Sorter where
  sort : List SnapshotRecord → List SnapshotRecord
  perm : ∀ rs, (sort rs).Perm rs
  sorted : ∀ rs, InOrder (sort rs)
  fixed : ∀ rs, InOrder rs → sort rs = rs

/-- The hash of the contents of a snapshot, in hexadecimal digits. -/
structure Hash where
  revision : List SnapshotZone → Str
  injective : Function.Injective revision
  digits : ∀ zs, revision zs ≠ []

/-- What the functions of this package need from outside. -/
structure Env where
  sorter : Sorter
  hash : Hash

section

variable (env : Env)

/-- `zone.ZoneType == "secondary"`. -/
def secondary (z : Zone) : Bool := z.zoneType = "secondary".toList

def snapshotRecord (r : Record) : SnapshotRecord := ⟨r.name, r.type, r.ttl, r.value, r.priority⟩

/-- One turn of the loop of `BuildSnapshot`. -/
def snapshotZone (z : Zone) : SnapshotZone :=
  ⟨z.name, z.primaryNS, z.contact, env.sorter.sort (z.records.map snapshotRecord)⟩

/-- The zones of `BuildSnapshot`; their names differ. -/
def snapshotZones (all : List Zone) : List SnapshotZone :=
  ((all.filter (fun z => !secondary z)).map (snapshotZone env)).insertionSort (fun a b => a.name ≤ b.name)

/-- `BuildSnapshot`. -/
def buildSnapshot (all : List Zone) (clusterID : Str) (primary : SnapshotIdentity) (now : ℕ) : Snapshot where
  protocol := protocol
  clusterID := clusterID
  revision := env.hash.revision (snapshotZones env all)
  generatedAt := now
  zones := snapshotZones env all
  primary := primary

/-- `toRecords`. -/
def toRecords (records : List SnapshotRecord) : List Record :=
  records.map (fun r => ⟨0, r.name, r.type, r.ttl, r.value, r.priority⟩)

/-- The zone that `apply` makes of an item of a snapshot. -/
def SnapshotZone.toZone (item : SnapshotZone) : Zone where
  id := 0
  name := item.name
  primaryNS := item.primaryNS
  contact := item.contact
  revision := 0
  records := toRecords item.records

/-- `sameZone`. -/
def sameZone (existing : Zone) (wanted : SnapshotZone) : Bool :=
  (buildSnapshot env [existing] [] {} 0).revision = (buildSnapshot env [wanted.toZone] [] {} 0).revision

end

/-! ### An environment -/

/-- What `less` compares. -/
def SnapshotRecord.key (r : SnapshotRecord) : Str ×ₗ (Str ×ₗ Str) := toLex (r.name, toLex (r.type, r.value))

theorem less_iff (a b : SnapshotRecord) : a.less b = true ↔ a.key < b.key := by
  unfold SnapshotRecord.less SnapshotRecord.key
  rw [Prod.Lex.toLex_lt_toLex, Prod.Lex.toLex_lt_toLex]
  dsimp only
  split_ifs with h1 h2
  · simp [h1]
  · rw [not_not] at h1
    simp [h1, h2]
  · rw [not_not] at h1 h2
    simp [h1, h2]

theorem less_eq_false_iff (a b : SnapshotRecord) : b.less a = false ↔ a.key ≤ b.key := by
  rw [← not_lt, ← less_iff, Bool.not_eq_true]

/-- A sort that is stable. -/
def Sorter.stable : Sorter where
  sort rs := rs.insertionSort (fun a b => b.less a = false)
  perm rs := List.perm_insertionSort _ _
  sorted rs := by
    have : Std.Total (fun a b : SnapshotRecord => b.less a = false) := by
      refine ⟨fun a b => ?_⟩
      rw [less_eq_false_iff, less_eq_false_iff]
      exact le_total a.key b.key
    have : IsTrans SnapshotRecord (fun a b => b.less a = false) := by
      refine ⟨fun a b c => ?_⟩
      rw [less_eq_false_iff, less_eq_false_iff, less_eq_false_iff]
      exact le_trans
    exact List.pairwise_insertionSort _ rs
  fixed rs h := h.insertionSort_eq

/-- A text with its length before it. -/
def framed (s : Str) : Str := decimal s.length ++ ':' :: s

theorem framed_inj {a b x y : Str} (h : framed a ++ x = framed b ++ y) : a = b ∧ x = y := by
  unfold framed at h
  rw [List.append_assoc, List.append_assoc, List.cons_append, List.cons_append] at h
  -- the length is what stands before the first colon, read from the other end
  have hcut : ∀ {u v p q : Str}, ':' ∉ u → ':' ∉ v → u ++ ':' :: p = v ++ ':' :: q → u = v ∧ p = q := by
    intro u v p q hu hv hpq
    have hrev := congrArg List.reverse hpq
    simp only [List.reverse_append, List.reverse_cons, List.append_assoc, List.singleton_append] at hrev
    obtain ⟨hp, hu'⟩ := append_sep_inj (by simpa using hu) (by simpa using hv) hrev
    exact ⟨List.reverse_injective hu', List.reverse_injective hp⟩
  obtain ⟨hlen, hrest⟩ := hcut (notMem_decimal rfl _) (notMem_decimal rfl _) h
  exact List.append_inj hrest (decimal_inj hlen)

/-- The texts of a list, each with its length before it. -/
def framedAll {α : Type} (text : α → Str) (l : List α) : Str := l.flatMap (fun a => framed (text a))

theorem framedAll_inj {α : Type} {text : α → Str} (htext : Function.Injective text) :
    Function.Injective (framedAll text) := by
  have hne : ∀ (a : α) (l : List α), framedAll text (a :: l) ≠ [] := by
    intro a l
    simp [framedAll, framed]
  intro l
  induction l with
  | nil =>
    intro l' h
    cases l' with
    | nil => rfl
    | cons a l' => exact absurd h.symm (hne a l')
  | cons a l ih =>
    intro l' h
    cases l' with
    | nil => exact absurd h (hne a l)
    | cons b l' =>
      obtain ⟨hab, hll⟩ := framed_inj h
      rw [htext hab, ih hll]

def SnapshotRecord.text (r : SnapshotRecord) : Str :=
  framedAll id [r.name, r.type, decimal r.ttl.toNat, r.value, decimal r.priority.toNat]

def SnapshotZone.text (z : SnapshotZone) : Str :=
  framedAll id [z.name, z.primaryNS, z.contact, framedAll SnapshotRecord.text z.records]

/-- The contents as their own hash. -/
def Hash.plain : Hash where
  revision zs := '#' :: framedAll SnapshotZone.text zs
  injective := by
    have hrecord : Function.Injective SnapshotRecord.text := by
      intro a b h
      have hfields := framedAll_inj Function.injective_id h
      simp only [List.cons.injEq, and_true] at hfields
      obtain ⟨h1, h2, h3, h4, h5⟩ := hfields
      obtain ⟨n, t, ttl, v, p⟩ := a
      obtain ⟨n', t', ttl', v', p'⟩ := b
      simp only [SnapshotRecord.mk.injEq]
      exact ⟨h1, h2, UInt32.toNat_inj.1 (decimal_inj h3), h4, UInt16.toNat_inj.1 (decimal_inj h5)⟩
    have hzone : Function.Injective SnapshotZone.text := by
      intro a b h
      have hfields := framedAll_inj Function.injective_id h
      simp only [List.cons.injEq, and_true] at hfields
      obtain ⟨h1, h2, h3, h4⟩ := hfields
      obtain ⟨n, ns, c, rs⟩ := a
      obtain ⟨n', ns', c', rs'⟩ := b
      simp only [SnapshotZone.mk.injEq]
      exact ⟨h1, h2, h3, framedAll_inj hrecord h4⟩
    intro zs zs' h
    exact framedAll_inj hzone (List.cons.inj h).2
  digits zs := by simp

/-- An environment in which everything can be computed. -/
def Env.plain : Env := ⟨.stable, .plain⟩

end Velora.Cluster
