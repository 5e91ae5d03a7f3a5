import Velora.Cache.Defs
import Velora.Lib.Lru

/-!
# The map and the list agree

`Inv` says that the map of a cache points exactly at the elements of its list, that no two elements share an identity
or a key, and that the list is within the bound. Every operation keeps it. What an operation does is then told by the
entries in order of use alone (`values`): one lemma for each operation, used by everything that follows.
-/

namespace Velora.Cache

open Velora.Lib Velora.Lib.Text Velora.Wire Velora.Dns

/-- The invariant of the cache. -/
structure Inv (c : Cache) : Prop where
  ids : (c.lru.map Elem.id).Nodup
  fresh : ∀ el ∈ c.lru, el.id < c.next
  points : ∀ k id, c.items.lookup k = some id ↔ ∃ el ∈ c.lru, el.id = id ∧ el.value.key = k
  size : c.lru.length ≤ c.max

/-- The entries, the most recently used first. -/
def values (c : Cache) : List Entry := c.lru.map Elem.value

section

variable {c : Cache} (hc : Inv c)

include hc

namespace Inv

theorem eq_of_id {a b : Elem} (ha : a ∈ c.lru) (hb : b ∈ c.lru) (h : a.id = b.id) : a = b :=
  List.inj_on_of_nodup_map hc.ids ha hb h

theorem eq_of_key {a b : Elem} (ha : a ∈ c.lru) (hb : b ∈ c.lru) (h : a.value.key = b.value.key) : a = b := by
  have h1 := (hc.points _ _).2 ⟨a, ha, rfl, rfl⟩
  have h2 := (hc.points _ _).2 ⟨b, hb, rfl, rfl⟩
  rw [h, h2] at h1
  exact hc.eq_of_id ha hb (Option.some.inj h1).symm

theorem keys_nodup : (c.lru.map (fun el => el.value.key)).Nodup := by
  refine (List.nodup_map_iff_inj_on hc.ids.of_map).2 ?_
  intro a ha b hb h
  exact hc.eq_of_key ha hb h

theorem mem_items {k : Str} : k ∈ c.items ↔ ∃ el ∈ c.lru, el.value.key = k := by
  rw [← AList.lookup_isSome, Option.isSome_iff_exists]
  constructor
  · rintro ⟨id, h⟩
    obtain ⟨el, hel, -, hk⟩ := (hc.points k id).1 h
    exact ⟨el, hel, hk⟩
  · rintro ⟨el, hel, hk⟩
    exact ⟨el.id, (hc.points k el.id).2 ⟨el, hel, rfl, hk⟩⟩

/-- The map and the list hold the same keys. -/
theorem keys_perm : c.items.keys.Perm (c.lru.map (fun el => el.value.key)) := by
  refine (List.perm_ext_iff_of_nodup c.items.keys_nodup hc.keys_nodup).2 fun k => ?_
  rw [← AList.mem_keys, hc.mem_items, List.mem_map]

theorem items_length : c.items.entries.length = c.lru.length := by
  have h := hc.keys_perm.length_eq
  simpa [AList.keys, List.keys] using h

theorem element_of_mem {el : Elem} (h : el ∈ c.lru) : c.element el.id = some el :=
  (Lru.find?_key_iff hc.ids).2 ⟨h, rfl⟩

/-- What the map finds under a key is the element of the list with that key. -/
theorem lookup_iff {k : Str} {el : Elem} : c.lookup k = some el ↔ el ∈ c.lru ∧ el.value.key = k := by
  unfold lookup
  constructor
  · intro h
    obtain ⟨id, hid, hel⟩ := Option.bind_eq_some_iff.1 h
    obtain ⟨x, hx, rfl, hk⟩ := (hc.points k id).1 hid
    rw [hc.element_of_mem hx, Option.some.injEq] at hel
    exact hel ▸ ⟨hx, hk⟩
  · rintro ⟨hel, hk⟩
    rw [(hc.points k el.id).2 ⟨el, hel, rfl, hk⟩]
    exact hc.element_of_mem hel

theorem values_nodup : ((values c).map Entry.key).Nodup := by
  rw [values, List.map_map]
  exact hc.keys_nodup

theorem find_values (k : Str) : (values c).find? (fun e => e.key = k) = (c.lookup k).map Elem.value := by
  cases hl : c.lookup k with
  | some el =>
    obtain ⟨hel, hk⟩ := hc.lookup_iff.1 hl
    exact (Lru.find?_key_iff hc.values_nodup).2 ⟨List.mem_map_of_mem hel, hk⟩
  | none =>
    refine List.find?_eq_none.2 fun e he hk => ?_
    obtain ⟨x, hx, rfl⟩ := List.mem_map.1 he
    rw [hc.lookup_iff.2 ⟨hx, by simpa using hk⟩] at hl
    cases hl

end Inv

/-- Leaving out an identity is leaving out a key. -/
theorem filter_id_eq {el : Elem} (hel : el ∈ c.lru) :
    c.lru.filter (fun x => x.id ≠ el.id) = c.lru.filter (fun x => x.value.key ≠ el.value.key) := by
  refine List.filter_congr fun x hx => ?_
  have hiff : x.id = el.id ↔ x.value.key = el.value.key :=
    ⟨fun h => by rw [hc.eq_of_id hx hel h], fun h => by rw [hc.eq_of_key hx hel h]⟩
  simp [hiff]

theorem values_filter_id {el : Elem} (hel : el ∈ c.lru) :
    (c.lru.filter (fun x => x.id ≠ el.id)).map Elem.value = (values c).filter (fun e => e.key ≠ el.value.key) := by
  rw [filter_id_eq hc hel, values, List.filter_map]
  rfl

theorem values_remove {el : Elem} (hel : el ∈ c.lru) :
    values (c.remove el) = (values c).filter (fun e => e.key ≠ el.value.key) :=
  values_filter_id hc hel

theorem values_moveToFront {el : Elem} (hel : el ∈ c.lru) :
    values (c.moveToFront el) = el.value :: (values c).filter (fun e => e.key ≠ el.value.key) := by
  rw [← values_filter_id hc hel]
  rfl

/-! ### Every operation keeps the invariant -/

theorem Inv.remove {el : Elem} (hel : el ∈ c.lru) : Inv (c.remove el) where
  ids := hc.ids.sublist (List.filter_sublist.map _)
  fresh x hx := hc.fresh x (List.mem_of_mem_filter hx)
  size := (List.length_filter_le _ _).trans hc.size
  points k id := by
    show (c.items.erase el.value.key).lookup k = some id ↔ _
    rw [Cache.remove, filter_id_eq hc hel]
    by_cases hk : k = el.value.key
    · subst hk
      simp only [AList.lookup_erase, reduceCtorEq, false_iff, not_exists, not_and]
      rintro x hx - h
      exact absurd h (by simpa using (List.mem_filter.1 hx).2)
    · rw [AList.lookup_erase_ne hk, hc.points k id]
      constructor
      · rintro ⟨x, hx, h1, rfl⟩
        exact ⟨x, List.mem_filter.2 ⟨hx, by simpa using hk⟩, h1, rfl⟩
      · rintro ⟨x, hx, h1, h2⟩
        exact ⟨x, List.mem_of_mem_filter hx, h1, h2⟩

theorem moveToFront_perm {el : Elem} (hel : el ∈ c.lru) : (c.moveToFront el).lru.Perm c.lru := by
  have hnd : c.lru.Nodup := hc.ids.of_map
  have herase : c.lru.filter (fun x => x.id ≠ el.id) = c.lru.erase el := by
    rw [hnd.erase_eq_filter]
    refine List.filter_congr fun x hx => ?_
    have hiff : x.id = el.id ↔ x = el := ⟨fun h => hc.eq_of_id hx hel h, fun h => by rw [h]⟩
    simp only [ne_eq, hiff, decide_not, bne, beq_eq_decide]
  show (el :: c.lru.filter (fun x => x.id ≠ el.id)).Perm c.lru
  rw [herase]
  exact (List.perm_cons_erase hel).symm

theorem Inv.moveToFront {el : Elem} (hel : el ∈ c.lru) : Inv (c.moveToFront el) := by
  have hperm := moveToFront_perm hc hel
  constructor
  · exact ((hperm.map Elem.id).nodup_iff).2 hc.ids
  · exact fun x hx => hc.fresh x (hperm.mem_iff.1 hx)
  · intro k id
    show c.items.lookup k = some id ↔ _
    rw [hc.points k id]
    simp only [hperm.mem_iff]
  · exact hperm.length_eq.le.trans hc.size

theorem Inv.pushFront {e : Entry} (hnew : e.key ∉ c.items) (hroom : c.lru.length < c.max) : Inv (c.pushFront e) where
  ids := List.nodup_cons.2 ⟨fun h => by
    obtain ⟨x, hx, hid⟩ := List.mem_map.1 h
    exact absurd (hc.fresh x hx) (by simp [hid]), hc.ids⟩
  fresh x hx := by
    rcases List.mem_cons.1 hx with rfl | hx
    · exact Nat.lt_succ_self _
    · exact (hc.fresh x hx).trans (Nat.lt_succ_self _)
  size := hroom
  points k id := by
    show (c.items.insert e.key c.next).lookup k = some id ↔ _
    by_cases hk : k = e.key
    · subst hk
      rw [AList.lookup_insert]
      constructor
      · rintro ⟨⟩
        exact ⟨⟨c.next, e⟩, List.mem_cons_self, rfl, rfl⟩
      · rintro ⟨x, hx, rfl, hxk⟩
        rcases List.mem_cons.1 hx with rfl | hx
        · rfl
        · exact absurd (hc.mem_items.2 ⟨x, hx, hxk⟩) hnew
    · rw [AList.lookup_insert_ne hk, hc.points k id]
      constructor
      · rintro ⟨x, hx, h1, h2⟩
        exact ⟨x, List.mem_cons_of_mem _ hx, h1, h2⟩
      · rintro ⟨x, hx, h1, h2⟩
        rcases List.mem_cons.1 hx with rfl | hx
        · exact absurd h2.symm hk
        · exact ⟨x, hx, h1, h2⟩

omit hc in
/-- The invariant is about the map, the list and the bound only. -/
theorem Inv.congr (hc : Inv c) {d : Cache} (h1 : d.items = c.items) (h2 : d.lru = c.lru) (h3 : d.next = c.next)
    (h4 : d.max = c.max) : Inv d where
  ids := h2 ▸ hc.ids
  fresh := h2 ▸ h3 ▸ hc.fresh
  points := h1 ▸ h2 ▸ hc.points
  size := h2 ▸ h4 ▸ hc.size

omit hc in
theorem Inv.flush (c : Cache) : Inv c.flush := by
  constructor <;> simp [Cache.flush]

omit hc in
theorem Inv.new (max : ℤ) : Inv (new max) := by
  constructor <;> simp [Cache.new]

omit hc in
theorem Inv.setUpstreamTTL (hc : Inv c) (seconds : UInt32) : Inv (c.setUpstreamTTL seconds) := by
  unfold Cache.setUpstreamTTL
  split
  · exact hc
  · exact Inv.flush _

/-- The last element of the list is the one `removeBack` takes out. -/
theorem values_removeBack : values c.removeBack = (values c).dropLast ∧ Inv c.removeBack := by
  unfold removeBack
  cases hl : c.lru.getLast? with
  | none =>
    rw [List.getLast?_eq_none_iff] at hl
    exact ⟨by simp [values, hl], hc⟩
  | some el =>
    have hel : el ∈ c.lru := List.mem_of_getLast? hl
    refine ⟨?_, hc.remove hel⟩
    obtain ⟨init, hinit⟩ := List.getLast?_eq_some_iff.1 hl
    have hids := hc.ids
    rw [hinit, List.map_append, List.nodup_append] at hids
    -- no other element has the identity of the last one
    have hfilter : c.lru.filter (fun x => x.id ≠ el.id) = init := by
      have hinit' : init.filter (fun x => x.id ≠ el.id) = init := by
        refine List.filter_eq_self.2 fun x hx => ?_
        have := hids.2.2 x.id (List.mem_map_of_mem hx) el.id (by simp)
        simpa using this
      rw [hinit, List.filter_append, hinit']
      simp
    show (c.lru.filter (fun x => x.id ≠ el.id)).map Elem.value = _
    rw [hfilter, values, hinit]
    simp

/-- Taking out what is stored under a key, if anything is. -/
theorem removeKey_spec (k : Str) :
    Inv (c.removeKey k) ∧ (c.removeKey k).max = c.max ∧
      values (c.removeKey k) = (values c).filter (fun e => e.key ≠ k) := by
  unfold removeKey
  cases hl : c.lookup k with
  | some old =>
    obtain ⟨hel, rfl⟩ := hc.lookup_iff.1 hl
    exact ⟨hc.remove hel, rfl, values_remove hc hel⟩
  | none =>
    refine ⟨hc, rfl, (List.filter_eq_self.2 fun e he => ?_).symm⟩
    have hnone := hc.find_values k
    rw [hl] at hnone
    simpa using List.find?_eq_none.1 hnone e he

theorem makeRoom_spec :
    Inv c.makeRoom ∧ c.makeRoom.max = c.max ∧ values c.makeRoom = Lru.makeRoom c.max (values c) := by
  have hlen : c.items.entries.length = (values c).length := by rw [hc.items_length, values, List.length_map]
  unfold makeRoom Lru.makeRoom
  rw [hlen]
  split
  · obtain ⟨hvals, hinv⟩ := values_removeBack hc
    refine ⟨hinv, ?_, hvals⟩
    unfold removeBack
    split <;> rfl
  · exact ⟨hc, rfl, rfl⟩

omit hc in
/-- What `Put` stores, and when. -/
theorem entryOf_some {lib : Miekg} {max now : ℕ} {q m : Msg} {e : Entry} (h : entryOf lib max q m now = some e) :
    max ≠ 0 ∧ m.truncated = false ∧ (cacheTTL m).1 ≠ 0 ∧ ∃ k, key q = some k ∧
      e = ⟨k, normalizeNegativeTTL m, now, now + (cacheTTL m).1.toNat * second⟩ := by
  unfold entryOf at h
  split at h
  · cases h
  · rename_i k hk
    split at h
    · cases h
    · rename_i hg
      split at h
      · cases h
      · rename_i httl
        push Not at hg
        exact ⟨hg.1, by simpa using hg.2.1, httl, k, hk, (Option.some.inj h).symm⟩

omit hc in
/-- `Put` of a message that is not cached changes nothing. -/
theorem put_none {lib : Miekg} {q m : Msg} {now : ℕ} (h : entryOf lib c.max q m now = none) :
    c.put lib q m now = c := by
  simp [put, h]

/-- `Put` replaces before it makes room, and puts the new entry first. -/
theorem put_some {lib : Miekg} {q m : Msg} {now : ℕ} {e : Entry} (h : entryOf lib c.max q m now = some e) :
    Inv (c.put lib q m now) ∧
      values (c.put lib q m now) = e :: Lru.makeRoom c.max ((values c).filter (fun x => x.key ≠ e.key)) := by
  obtain ⟨hinv₁, hmax₁, hvals₁⟩ := removeKey_spec hc e.key
  obtain ⟨hinv₂, hmax₂, hvals₂⟩ := makeRoom_spec hinv₁
  have hput : c.put lib q m now = ((c.removeKey e.key).makeRoom).pushFront e := by simp [put, h]
  have hroom : values (c.removeKey e.key).makeRoom =
      Lru.makeRoom c.max ((values c).filter (fun x => x.key ≠ e.key)) := by rw [hvals₂, hmax₁, hvals₁]
  rw [hput]
  refine ⟨hinv₂.pushFront ?_ ?_, ?_⟩
  · -- the key was taken out before
    intro hmem
    obtain ⟨x, hx, hk⟩ := hinv₂.mem_items.1 hmem
    have hxv : x.value ∈ values (c.removeKey e.key).makeRoom := List.mem_map_of_mem hx
    rw [hroom] at hxv
    have hne := (List.mem_filter.1 ((Lru.makeRoom_sublist _ _).subset hxv)).2
    simp [hk] at hne
  · have hlen : (c.removeKey e.key).makeRoom.lru.length = (values (c.removeKey e.key).makeRoom).length := by
      rw [values, List.length_map]
    rw [hlen, hroom, hmax₂, hmax₁]
    refine Lru.length_makeRoom_lt (Nat.pos_of_ne_zero (entryOf_some h).1) ?_
    refine (List.length_filter_le _ _).trans ?_
    rw [values, List.length_map]
    exact hc.size
  · show e :: values (c.removeKey e.key).makeRoom = _
    rw [hroom]

omit hc in
/-- `Get` of a query without an entry. -/
theorem get_miss {q : Msg} (now : ℕ) (h : (key q).bind c.lookup = none) :
    c.get q now = ({ c with misses := c.misses + 1 }, none) := by
  simp [get, h]

/-- `Get` of a live entry brings it to the front. -/
theorem get_hit {q : Msg} {now : ℕ} {el : Elem} (h : (key q).bind c.lookup = some el)
    (hnow : now < el.value.expires) :
    Inv (c.get q now).1 ∧ (c.get q now).2 = some (aged el.value q now) ∧
      values (c.get q now).1 = el.value :: (values c).filter (fun e => e.key ≠ el.value.key) := by
  obtain ⟨k, -, hk⟩ := Option.bind_eq_some_iff.1 h
  have hel := (hc.lookup_iff.1 hk).1
  have hget : c.get q now = ({ c with hits := c.hits + 1 }.moveToFront el, some (aged el.value q now)) := by
    simp [get, h, hnow]
  rw [hget]
  refine ⟨(hc.moveToFront hel).congr rfl rfl rfl rfl, rfl, ?_⟩
  exact values_moveToFront hc hel

/-- `Get` of an expired entry takes it out. -/
theorem get_expired {q : Msg} {now : ℕ} {el : Elem} (h : (key q).bind c.lookup = some el)
    (hnow : ¬ now < el.value.expires) :
    Inv (c.get q now).1 ∧ (c.get q now).2 = none ∧
      values (c.get q now).1 = (values c).filter (fun e => e.key ≠ el.value.key) := by
  obtain ⟨k, -, hk⟩ := Option.bind_eq_some_iff.1 h
  have hel := (hc.lookup_iff.1 hk).1
  have hget : c.get q now = ({ c with misses := c.misses + 1 }.remove el, none) := by
    simp [get, h, hnow]
  rw [hget]
  refine ⟨(hc.remove hel).congr rfl rfl rfl rfl, rfl, ?_⟩
  exact values_remove hc hel

omit hc in
theorem visit_spec (hc : Inv c) (p : Entry → Bool) (n id : ℕ) :
    Inv (visit p (c, n) id).1 ∧ (visit p (c, n) id).1.max = c.max ∧
      (visit p (c, n) id).1.lru = c.lru.filter (fun el => !(p el.value && el.id == id)) := by
  have hkeep : (∀ el ∈ c.lru, el.id = id → p el.value = false) →
      c.lru.filter (fun el => !(p el.value && el.id == id)) = c.lru := by
    intro h
    refine List.filter_eq_self.2 fun el hel => ?_
    by_cases hid : el.id = id
    · simp [h el hel hid]
    · simp [hid]
  unfold visit
  cases hel : c.element id with
  | none =>
    refine ⟨hc, rfl, (hkeep fun el h hid => ?_).symm⟩
    subst hid
    rw [hc.element_of_mem h] at hel
    cases hel
  | some el =>
    obtain ⟨hmem, rfl⟩ := (Lru.find?_key_iff hc.ids).1 hel
    by_cases hp : p el.value = true
    · simp only [hp, if_true]
      refine ⟨hc.remove hmem, rfl, List.filter_congr fun x hx => ?_⟩
      by_cases hid : x.id = el.id
      · obtain rfl := hc.eq_of_id hx hmem hid
        simp [hp]
      · simp [hid]
    · simp only [if_neg hp]
      refine ⟨hc, trivial, (hkeep fun x hx hid => ?_).symm⟩
      obtain rfl := hc.eq_of_id hx hmem hid
      simpa using hp

omit hc in
theorem foldl_visit (p : Entry → Bool) : ∀ (ids : List ℕ) (c : Cache) (n : ℕ), Inv c →
    Inv (ids.foldl (visit p) (c, n)).1 ∧ (ids.foldl (visit p) (c, n)).1.max = c.max ∧
      (ids.foldl (visit p) (c, n)).1.lru = c.lru.filter (fun el => !(p el.value && ids.contains el.id))
  | [], c, n, hc => ⟨hc, rfl, by simp⟩
  | id :: ids, c, n, hc => by
    obtain ⟨hinv, hmax, hlru⟩ := visit_spec hc p n id
    obtain ⟨h1, h2, h3⟩ := foldl_visit p ids (visit p (c, n) id).1 (visit p (c, n) id).2 hinv
    refine ⟨h1, h2.trans hmax, h3.trans ?_⟩
    rw [hlru, List.filter_filter]
    refine List.filter_congr fun el _ => ?_
    rw [List.contains_cons]
    cases p el.value <;> cases el.id == id <;> simp

/-- The loops over the map remove exactly the entries they look for, in whatever order the map is walked. -/
theorem removeWhere_spec (p : Entry → Bool) :
    Inv (c.removeWhere p).1 ∧ (c.removeWhere p).1.max = c.max ∧
      values (c.removeWhere p).1 = (values c).filter (fun e => !p e) := by
  obtain ⟨h1, h2, h3⟩ := foldl_visit p (c.items.entries.map Sigma.snd) c 0 hc
  refine ⟨h1, h2, ?_⟩
  rw [values, removeWhere, h3, values, List.filter_map]
  congr 1
  refine List.filter_congr fun el hel => ?_
  have hid : (c.items.entries.map Sigma.snd).contains el.id = true := by
    have hlook := (hc.points _ _).2 ⟨el, hel, rfl, rfl⟩
    have hentry := AList.mem_lookup_iff.1 hlook
    exact List.contains_iff_mem.2 (List.mem_map.2 ⟨_, hentry, rfl⟩)
  simp only [hid, Bool.and_true, Function.comp_apply]

omit hc in
/-- A turn that counts one takes one element out. -/
theorem visit_count (hc : Inv c) (p : Entry → Bool) (n id : ℕ) :
    (visit p (c, n) id).2 + (visit p (c, n) id).1.lru.length = n + c.lru.length := by
  unfold visit
  cases hel : c.element id with
  | none => rfl
  | some el =>
    obtain ⟨hmem, -⟩ := (Lru.find?_key_iff hc.ids).1 hel
    have hlen := (moveToFront_perm hc hmem).length_eq
    dsimp only
    split
    · show n + 1 + (c.lru.filter (fun x => x.id ≠ el.id)).length = _
      simp only [moveToFront, List.length_cons] at hlen
      omega
    · rfl

omit hc in
theorem foldl_visit_count (p : Entry → Bool) : ∀ (ids : List ℕ) (c : Cache) (n : ℕ), Inv c →
    (ids.foldl (visit p) (c, n)).2 + (ids.foldl (visit p) (c, n)).1.lru.length = n + c.lru.length
  | [], _, _, _ => rfl
  | id :: ids, c, n, hc => by
    have hstep := visit_count hc p n id
    have hrest := foldl_visit_count p ids (visit p (c, n) id).1 (visit p (c, n) id).2 (visit_spec hc p n id).1
    exact hrest.trans hstep

/-- The number returned is the number of entries that were looked for. -/
theorem removeWhere_count (p : Entry → Bool) : (c.removeWhere p).2 = (values c).countP p := by
  have htotal : (c.removeWhere p).2 + (c.removeWhere p).1.lru.length = 0 + c.lru.length := by
    unfold removeWhere
    exact foldl_visit_count p _ c 0 hc
  have hkept := congrArg List.length (removeWhere_spec hc p).2.2
  have hsplit : (values c).length = (values c).countP p + ((values c).filter (fun e => !p e)).length := by
    rw [List.length_eq_countP_add_countP (p := p), List.countP_eq_length_filter (p := fun e => decide ¬p e = true)]
    simp
  rw [← hkept, values, List.length_map, values, List.length_map] at hsplit
  rw [values]
  omega

theorem expire_spec (now : ℕ) :
    Inv (c.expire now) ∧ (c.expire now).max = c.max ∧
      values (c.expire now) = (values c).filter (fun e => decide (now < e.expires)) := by
  obtain ⟨h1, h2, h3⟩ := removeWhere_spec hc (fun e => !decide (now < e.expires))
  refine ⟨h1, h2, h3.trans ?_⟩
  simp

/-! ### Where entries come from -/

/-- `Get` adds no entry, and returns one of them aged. -/
theorem get_entries (q : Msg) (now : ℕ) :
    Inv (c.get q now).1 ∧ (∀ e ∈ values (c.get q now).1, e ∈ values c) ∧
      ∀ m, (c.get q now).2 = some m → ∃ e ∈ values c, key q = some e.key ∧ m = aged e q now := by
  cases hp : (key q).bind c.lookup with
  | none =>
    rw [get_miss now hp]
    exact ⟨hc.congr rfl rfl rfl rfl, fun e he => he, by simp⟩
  | some el =>
    obtain ⟨k, hk, hl⟩ := Option.bind_eq_some_iff.1 hp
    obtain ⟨hel, rfl⟩ := hc.lookup_iff.1 hl
    have hmem : el.value ∈ values c := List.mem_map_of_mem hel
    by_cases hnow : now < el.value.expires
    · obtain ⟨hinv, hres, hvals⟩ := get_hit hc hp hnow
      refine ⟨hinv, ?_, ?_⟩
      · rw [hvals]
        intro e he
        rcases List.mem_cons.1 he with rfl | he
        · exact hmem
        · exact List.mem_of_mem_filter he
      · intro m hm
        rw [hres, Option.some.injEq] at hm
        exact ⟨el.value, hmem, hk, hm.symm⟩
    · obtain ⟨hinv, hres, hvals⟩ := get_expired hc hp hnow
      refine ⟨hinv, ?_, by simp [hres]⟩
      rw [hvals]
      exact fun e he => List.mem_of_mem_filter he

/-- `Put` adds no entry but the one it is given. -/
theorem put_entries (lib : Miekg) (q m : Msg) (now : ℕ) :
    Inv (c.put lib q m now) ∧ ∀ e ∈ values (c.put lib q m now), e ∈ values c ∨
      key q = some e.key ∧ e.message = normalizeNegativeTTL m := by
  cases he : entryOf lib c.max q m now with
  | none =>
    rw [put_none he]
    exact ⟨hc, fun e h => Or.inl h⟩
  | some e₀ =>
    obtain ⟨hinv, hvals⟩ := put_some hc he
    obtain ⟨-, -, -, k, hk, rfl⟩ := entryOf_some he
    refine ⟨hinv, ?_⟩
    rw [hvals]
    intro e hmem
    rcases List.mem_cons.1 hmem with rfl | hmem
    · exact Or.inr ⟨hk, rfl⟩
    · exact Or.inl (List.mem_of_mem_filter ((Lru.makeRoom_sublist _ _).subset hmem))

theorem removeWhere_entries (p : Entry → Bool) :
    Inv (c.removeWhere p).1 ∧ ∀ e ∈ values (c.removeWhere p).1, e ∈ values c := by
  obtain ⟨hinv, -, hvals⟩ := removeWhere_spec hc p
  refine ⟨hinv, ?_⟩
  rw [hvals]
  exact fun e he => List.mem_of_mem_filter he

end

end Velora.Cache
