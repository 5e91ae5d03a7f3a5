import Velora.Clients.Service

/-!
# The client of an address

In every state of the service the texts of the clients are networks as `FormatPrefix` writes them, no two clients own one
network (`reachable_inv`), and `Lookup` finds the enabled client that owns the longest network of the address
(`lookup_longest`).
-/

namespace Velora.Clients

open Velora.Lib Velora.Lib.Text Velora.Lib.Ip
open Velora.Lib.Loops (bind_eq_ok)
open Velora.Dns (Map)

/-! ### Texts of networks -/

/-- A network as `ParsePrefix` returns it. -/
structure Canonical (p : Prefix) : Prop where
  masked : p.IsMasked
  unmapped : is4In6 p.addr = false

theorem isSpaceRune_hex {c : Char} (h : (hexDigit c).isSome = true) : isSpaceRune c = false := by
  have hrange : (48 ≤ c.toNat ∧ c.toNat ≤ 57) ∨ (65 ≤ c.toNat ∧ c.toNat ≤ 70) ∨ (97 ≤ c.toNat ∧ c.toNat ≤ 102) := by
    unfold hexDigit at h
    split_ifs at h with h1 h2 h3
    · simp only [Char.isDigit, ge_iff_le, Bool.and_eq_true, decide_eq_true_eq] at h1
      exact Or.inl ⟨UInt32.le_iff_toNat_le.1 h1.1, UInt32.le_iff_toNat_le.1 h1.2⟩
    · exact Or.inr (Or.inr ⟨UInt32.le_iff_toNat_le.1 h2.1, UInt32.le_iff_toNat_le.1 h2.2⟩)
    · exact Or.inr (Or.inl ⟨UInt32.le_iff_toNat_le.1 h3.1, UInt32.le_iff_toNat_le.1 h3.2⟩)
    · cases h
  simp only [isSpaceRune, isSpace, List.mem_cons, List.not_mem_nil, or_false, Bool.or_eq_false_iff, Bool.and_eq_false_iff,
    decide_eq_false_iff_not, beq_eq_false_iff_ne]
  omega

/-- A text of a network has no blanks. -/
theorem isSpaceRune_formatPrefix {p : Prefix} : ∀ c ∈ formatPrefix p, isSpaceRune c = false := by
  intro c hc
  have hchars : (hexDigit c).isSome = true ∨ c = ':' ∨ c = '.' ∨ c = '/' := by
    unfold formatPrefix at hc
    split at hc
    · rcases mem_addrString hc with h | h | h
      · exact Or.inl h
      · exact Or.inr (Or.inl h)
      · exact Or.inr (Or.inr (Or.inl h))
    · exact mem_string hc
  rcases hchars with h | rfl | rfl | rfl
  · exact isSpaceRune_hex h
  all_goals decide

/-- A text without blanks is not trimmed. -/
theorem trimSpaces_of_all {s : Str} (h : ∀ c ∈ s, isSpaceRune c = false) : trimSpaces s = s := by
  have hdrop : ∀ {s : Str}, (∀ c ∈ s, isSpaceRune c = false) → s.dropWhile isSpaceRune = s := by
    intro s hs
    cases s with
    | nil => rfl
    | cons c cs => rw [List.dropWhile_cons_of_neg (by simp [hs c List.mem_cons_self])]
  unfold trimSpaces
  rw [hdrop h, hdrop (fun c hc => h c (List.mem_reverse.1 hc)), List.reverse_reverse]

theorem formatPrefix_ne_nil (p : Prefix) : formatPrefix p ≠ [] := by
  unfold formatPrefix
  split
  · intro hnil
    have hread := parseAddr_addrString_of_length p.size
    rw [hnil] at hread
    cases hread
  · simp [Prefix.string]

/-- **What `ParsePrefix` returns is in one form.** -/
theorem parsePrefix_canonical {raw : Str} {p : Prefix} (h : parsePrefix raw = .ok p) : Canonical p := by
  unfold parsePrefix at h
  dsimp only at h
  split at h
  · split at h
    · cases h
    · cases h
      exact ⟨Prefix.masked_isMasked _, Prefix.is4In6_unmapped _⟩
  · split at h
    · cases h
    · rename_i ip hip
      split at h
      · cases h
      · rename_i q hq
        cases h
        obtain ⟨haddr, hbits⟩ := Prefix.from'_eq_some.1 hq
        refine ⟨mask_all ?_, ?_⟩
        · rw [haddr, hbits]
        · rw [haddr]
          exact is4In6_unmapAddr ip

/-- **`ParsePrefix` reads back what `FormatPrefix` writes.** -/
theorem parsePrefix_formatPrefix {p : Prefix} (h : Canonical p) : parsePrefix (formatPrefix p) = .ok p := by
  have hmapped : ¬ p.IsMapped := by
    rintro ⟨h4, -⟩
    rw [h.unmapped] at h4
    cases h4
  unfold parsePrefix
  dsimp only
  rw [trimSpaces_of_all isSpaceRune_formatPrefix]
  unfold formatPrefix
  split
  · rename_i hsingle
    have hslash : '/' ∉ addrString p.addr := by
      intro hmem
      rcases mem_addrString hmem with hc | hc | hc
      all_goals cases hc
    rw [if_neg hslash, parseAddr_addrString_of_length p.size]
    dsimp only
    rw [unmapAddr, if_neg (by rw [h.unmapped]; decide)]
    have hfrom : Prefix.from' p.addr (8 * p.addr.length) = some p :=
      Prefix.from'_eq_some.2 ⟨rfl, by simpa [Prefix.isSingleIP] using hsingle⟩
    rw [hfrom]
  · have hslash : '/' ∈ p.string := by simp [Prefix.string]
    rw [if_pos hslash, parseNetipPrefix_string]
    dsimp only
    rw [Prefix.unmapped_of_not_mapped hmapped]
    exact congrArg Except.ok (Prefix.ext h.masked rfl)

theorem prefixes_canonical (c : Client) : ∀ p ∈ c.prefixes, Canonical p := by
  intro p hp
  obtain ⟨raw, -, hread⟩ := List.mem_filterMap.1 hp
  exact parsePrefix_canonical (Loops.eq_ok_of_toOption hread)

/-- **A network of IPv4-mapped addresses** is read as one of IPv4 addresses. -/
theorem parsePrefix_mapped {raw : Str} {q : Prefix} (hq : parseNetipPrefix (trimSpaces raw) = some q) (hm : q.IsMapped) :
    ∃ p, parsePrefix raw = .ok p ∧
      ∀ ip, ip.length = 4 → (p.Covers ip ↔ q.Covers (List.replicate 10 0 ++ [255, 255] ++ ip)) := by
  refine ⟨q.unmapped.masked, ?_, fun ip hip => ?_⟩
  · unfold parsePrefix
    dsimp only
    rw [if_pos (slash_mem_of_parse hq), hq]
  · rw [Prefix.covers_masked, Prefix.covers_unmapped hm hip]

/-! ### The index -/

/-- The networks of the enabled clients with their owners, in the order in which `build` adds them. -/
def entries (clients : List Client) : List (Prefix × Client) :=
  (clients.filter Client.enabled).flatMap (fun c => c.prefixes.map (fun p => (p, c)))

theorem mem_entries {clients : List Client} {p : Prefix} {c : Client} :
    (p, c) ∈ entries clients ↔ c ∈ clients ∧ c.enabled = true ∧ p ∈ c.prefixes := by
  simp only [entries, List.mem_flatMap, List.mem_filter, List.mem_map, Prod.mk.injEq]
  constructor
  · rintro ⟨x, ⟨hx, he⟩, q, hq, rfl, rfl⟩
    exact ⟨hx, he, hq⟩
  · rintro ⟨hc, he, hp⟩
    exact ⟨c, ⟨hc, he⟩, p, hp, rfl, rfl⟩

theorem addClient_eq (idx : Index) (c : Client) :
    idx.addClient c = if c.enabled then (c.prefixes.map (fun p => (p, c))).foldl (fun idx e => idx.add e.1 e.2) idx else idx := by
  unfold Index.addClient Client.prefixes
  split
  · induction c.addresses generalizing idx with
    | nil => rfl
    | cons raw rest ih =>
      rw [List.foldl_cons, ih, List.filterMap_cons]
      cases parsePrefix raw with
      | error e => rfl
      | ok p => rfl
  · rfl

theorem foldl_addClient (clients : List Client) (idx : Index) :
    clients.foldl Index.addClient idx = (entries clients).foldl (fun idx e => idx.add e.1 e.2) idx := by
  induction clients generalizing idx with
  | nil => rfl
  | cons c clients ih =>
    rw [List.foldl_cons, ih, addClient_eq]
    unfold entries
    by_cases he : c.enabled = true
    · rw [List.filter_cons_of_pos he, List.flatMap_cons, List.foldl_append, if_pos he]
    · rw [List.filter_cons_of_neg he, if_neg he]

/-- What the index holds after it was given some networks with their owners. -/
structure Indexes (es : List (Prefix × Client)) (idx : Index) : Prop where
  lengths : ∀ n, n ∈ idx.lengths ↔ ∃ e ∈ es, e.1.bits = n
  buckets : ∀ n, (idx.byLength.lookup n).isSome = true ↔ n ∈ idx.lengths
  owner : ∀ p : Prefix, (idx.byLength.lookup p.bits).bind (fun bucket => bucket.lookup p) =
    (es.reverse.find? (fun e => e.1 = p)).map Prod.snd

theorem Index.add_byLength (idx : Index) (p : Prefix) (c : Client) :
    (idx.add p c).byLength = idx.byLength.insert p.bits (((idx.byLength.lookup p.bits).getD ∅).insert p c) := by
  unfold Index.add
  cases idx.byLength.lookup p.bits with
  | none => rfl
  | some bucket => rfl

theorem Indexes.mem_add {es : List (Prefix × Client)} {idx : Index} (h : Indexes es idx) (p : Prefix) (c : Client) (n : ℕ) :
    n ∈ (idx.add p c).lengths ↔ n ∈ idx.lengths ∨ n = p.bits := by
  unfold Index.add
  cases hb : idx.byLength.lookup p.bits with
  | none => simp
  | some bucket =>
    have hmem : p.bits ∈ idx.lengths := (h.buckets _).1 (by rw [hb]; rfl)
    refine ⟨Or.inl, ?_⟩
    rintro (hn | rfl)
    · exact hn
    · exact hmem

theorem Indexes.add {es : List (Prefix × Client)} {idx : Index} (h : Indexes es idx) (p : Prefix) (c : Client) :
    Indexes (es ++ [(p, c)]) (idx.add p c) where
  lengths n := by
    rw [h.mem_add, h.lengths]
    constructor
    · rintro (⟨e, he, hn⟩ | rfl)
      · exact ⟨e, List.mem_append_left _ he, hn⟩
      · exact ⟨(p, c), by simp, rfl⟩
    · rintro ⟨e, he, hn⟩
      rcases List.mem_append.1 he with he | he
      · exact Or.inl ⟨e, he, hn⟩
      · rw [List.mem_singleton.1 he] at hn
        exact Or.inr hn.symm
  buckets n := by
    rw [h.mem_add, ← h.buckets, idx.add_byLength]
    by_cases hn : n = p.bits
    · rw [hn, AList.lookup_insert]
      simp
    · rw [AList.lookup_insert_ne hn]
      simp [hn]
  owner q := by
    rw [idx.add_byLength, List.reverse_append, List.reverse_singleton, List.singleton_append, List.find?_cons]
    by_cases hq : p = q
    · subst hq
      rw [AList.lookup_insert, Option.bind_some, AList.lookup_insert]
      simp
    · have hold := h.owner q
      rw [decide_eq_false hq]
      by_cases hbits : q.bits = p.bits
      · rw [hbits, AList.lookup_insert, Option.bind_some, AList.lookup_insert_ne (fun he => hq he.symm)]
        rw [← hold, hbits]
        cases idx.byLength.lookup p.bits with
        | none => simp
        | some bucket => rfl
      · rw [AList.lookup_insert_ne hbits]
        exact hold

theorem indexes_foldl (es : List (Prefix × Client)) : Indexes es (es.foldl (fun idx e => idx.add e.1 e.2) {}) := by
  induction es using List.reverseRecOn with
  | nil => exact ⟨by simp, by simp, by simp⟩
  | append_singleton es e ih =>
    rw [List.foldl_append]
    exact ih.add e.1 e.2

/-- The index of a list of clients. -/
theorem indexes_build (clients : List Client) :
    Indexes (entries clients) (build clients) ∧ (build clients).lengths.Pairwise (fun a b => b ≤ a) := by
  have h := indexes_foldl (entries clients)
  unfold build
  rw [foldl_addClient]
  refine ⟨⟨fun n => ?_, fun n => ?_, h.owner⟩, ?_⟩
  · rw [List.mem_insertionSort]
    exact h.lengths n
  · rw [List.mem_insertionSort]
    exact h.buckets n
  · have : Std.Total (fun a b : ℕ => b ≤ a) := ⟨fun a b => le_total b a⟩
    have : IsTrans ℕ (fun a b => b ≤ a) := ⟨fun a b c hab hbc => le_trans hbc hab⟩
    exact List.pairwise_insertionSort _ _

/-- No two clients own one network. -/
def Apart (clients : List Client) : Prop :=
  ∀ c ∈ clients, ∀ c' ∈ clients, ∀ p, p ∈ c.prefixes → p ∈ c'.prefixes → c = c'

/-- The owner of a network is the one in the index. -/
theorem owner_iff {clients : List Client} (h : Apart clients) {p : Prefix} {c : Client} :
    ((build clients).byLength.lookup p.bits).bind (fun bucket => bucket.lookup p) = some c ↔
      c ∈ clients ∧ c.enabled = true ∧ p ∈ c.prefixes := by
  rw [(indexes_build clients).1.owner, Option.map_eq_some_iff, ← mem_entries]
  constructor
  · rintro ⟨⟨q, x⟩, hfind, rfl⟩
    have hq := List.find?_some hfind
    obtain rfl : q = p := by simpa using hq
    exact List.mem_reverse.1 (List.mem_of_find?_eq_some hfind)
  · intro hmem
    have hsome : ((entries clients).reverse.find? (fun e => e.1 = p)).isSome = true := by
      rw [List.find?_isSome]
      exact ⟨(p, c), List.mem_reverse.2 hmem, by simp⟩
    obtain ⟨⟨q, x⟩, hfind⟩ := Option.isSome_iff_exists.1 hsome
    have hq := List.find?_some hfind
    obtain rfl : q = p := by simpa using hq
    refine ⟨(q, x), hfind, ?_⟩
    obtain ⟨hx, -, hqx⟩ := mem_entries.1 (List.mem_reverse.1 (List.mem_of_find?_eq_some hfind))
    obtain ⟨hc, -, hqc⟩ := mem_entries.1 hmem
    exact h x hx c hc q hqx hqc

/-! ### The longest network -/

/-- The client is enabled and owns the longest network of an enabled client that contains the address. -/
structure Longest (clients : List Client) (ip : List UInt8) (c : Client) : Prop where
  mem : c ∈ clients
  enabled : c.enabled = true
  owns : ∃ p ∈ c.prefixes, p.Covers ip ∧
    ∀ x ∈ clients, x.enabled = true → ∀ q ∈ x.prefixes, q.Covers ip → q.bits ≤ p.bits

/-- Among equally long networks an address has one. -/
theorem Longest.unique {clients : List Client} (hapart : Apart clients)
    {ip : List UInt8} {c c' : Client} (h : Longest clients ip c) (h' : Longest clients ip c') : c = c' := by
  obtain ⟨hc, he, p, hp, hcov, hmax⟩ := h
  obtain ⟨hc', he', p', hp', hcov', hmax'⟩ := h'
  have hbits : p.bits = p'.bits := le_antisymm (hmax' c hc he p hp hcov) (hmax c' hc' he' p' hp' hcov')
  rw [covers_iff_addrPrefix (prefixes_canonical c p hp).masked] at hcov
  rw [covers_iff_addrPrefix (prefixes_canonical c' p' hp').masked, ← hbits, hcov] at hcov'
  cases hcov'
  exact hapart c hc c' hc' p hp hp'

/-- One turn of the loop of `Lookup`. -/
theorem turn_iff {clients : List Client} (hapart : Apart clients)
    (ip : List UInt8) (n : ℕ) (c : Client) :
    (if n > 8 * ip.length then none
      else (addrPrefix ip n).bind (fun p => ((build clients).byLength.lookup n).bind (fun bucket => bucket.lookup p))) =
        some c ↔ c ∈ clients ∧ c.enabled = true ∧ ∃ p ∈ c.prefixes, p.bits = n ∧ p.Covers ip := by
  constructor
  · intro h
    split at h
    · cases h
    · obtain ⟨p, hp, hlook⟩ := Option.bind_eq_some_iff.1 h
      obtain ⟨hm, rfl⟩ := addrPrefix_isMasked hp
      obtain ⟨hc, he, hpc⟩ := (owner_iff hapart).1 hlook
      exact ⟨hc, he, p, hpc, rfl, (covers_iff_addrPrefix hm).2 hp⟩
  · rintro ⟨hc, he, p, hpc, rfl, hcov⟩
    have hle : ¬ p.bits > 8 * ip.length := by
      have hle := p.le
      rw [hcov.1]
      omega
    rw [if_neg hle, (covers_iff_addrPrefix (prefixes_canonical c p hpc).masked).1 hcov, Option.bind_some]
    exact (owner_iff hapart).2 ⟨hc, he, hpc⟩

theorem bits_mem_lengths {clients : List Client} {c : Client} {p : Prefix} (hc : c ∈ clients) (he : c.enabled = true)
    (hp : p ∈ c.prefixes) : p.bits ∈ (build clients).lengths :=
  ((indexes_build clients).1.lengths _).2 ⟨(p, c), mem_entries.2 ⟨hc, he, hp⟩, rfl⟩

theorem lookup_isSome {clients : List Client} (hapart : Apart clients)
    {a : Addr} {c : Client} {p : Prefix} (hc : c ∈ clients) (he : c.enabled = true) (hp : p ∈ c.prefixes)
    (hcov : p.Covers a.unmap.ip) : ((build clients).lookup a).isSome = true := by
  have hip : a.unmap.ip ≠ [] := by
    intro hnil
    have hsize := hcov.1
    rw [hnil] at hsize
    rcases p.size with hs | hs
    all_goals
      rw [hs] at hsize
      cases hsize
  unfold Index.lookup
  dsimp only
  rw [if_neg hip, List.findSome?_isSome_iff]
  refine ⟨p.bits, bits_mem_lengths hc he hp, ?_⟩
  rw [(turn_iff hapart a.unmap.ip p.bits c).2 ⟨hc, he, p, hp, rfl, hcov⟩]
  rfl

/-- **The loop of `Lookup`** finds the longest network. -/
theorem build_lookup {clients : List Client} (hapart : Apart clients)
    (a : Addr) (c : Client) : (build clients).lookup a = some c ↔ Longest clients a.unmap.ip c := by
  have hfound : ∀ c, (build clients).lookup a = some c → Longest clients a.unmap.ip c := by
    intro c h
    unfold Index.lookup at h
    dsimp only at h
    split at h
    · cases h
    · obtain ⟨longer, n, shorter, hsplit, hn, hnone⟩ := List.findSome?_eq_some_iff.1 h
      obtain ⟨hc, he, p, hp, rfl, hcov⟩ := (turn_iff hapart _ _ _).1 hn
      refine ⟨hc, he, p, hp, hcov, fun x hx hex q hq hcovq => ?_⟩
      by_contra hlt
      -- a longer network would have been met before
      have hmem := bits_mem_lengths hx hex hq
      have hsorted := (indexes_build clients).2
      rw [hsplit, List.pairwise_append, List.pairwise_cons] at hsorted
      rw [hsplit, List.mem_append, List.mem_cons] at hmem
      rcases hmem with hmem | hmem | hmem
      · have hmet := (turn_iff hapart a.unmap.ip q.bits x).2 ⟨hx, hex, q, hq, rfl, hcovq⟩
        rw [hnone q.bits hmem] at hmet
        cases hmet
      · exact hlt hmem.le
      · exact hlt (hsorted.2.1.1 _ hmem)
  refine ⟨hfound c, fun h => ?_⟩
  obtain ⟨p, hp, hcov, -⟩ := h.owns
  obtain ⟨x, hx⟩ := Option.isSome_iff_exists.1 (lookup_isSome hapart h.mem h.enabled hp hcov)
  rw [hx, (hfound x hx).unique hapart h]

/-! ### The states of the service -/

/-- What holds of the service between calls. -/
structure Inv (s : Service) : Prop where
  current : s.current = build s.clients
  ids : (s.clients.map Client.id).Nodup
  stored : ∀ c, c ∈ s.clients ↔ ∃ r ∈ s.repo.rows, r.client = c
  texts : ∀ c ∈ s.clients, ∀ raw ∈ c.addresses, ∃ p, Canonical p ∧ formatPrefix p = raw
  apart : Apart s.clients

theorem fields_join {addresses : List Str} (h : ∀ raw ∈ addresses, ∃ p, Canonical p ∧ formatPrefix p = raw) :
    Filtering.fields (List.intercalate [' '] addresses) = addresses := by
  unfold Filtering.fields
  induction addresses with
  | nil => rfl
  | cons raw rest ih =>
    obtain ⟨p, -, rfl⟩ := h raw List.mem_cons_self
    have hne := formatPrefix_ne_nil p
    cases rest with
    | nil =>
      rw [List.intercalate_singleton, List.splitOnP_eq_singleton isSpaceRune_formatPrefix]
      simp [hne]
    | cons raw' rest =>
      rw [List.intercalate_cons_cons, List.append_assoc, List.singleton_append,
        List.splitOnP_append_cons_of_forall_mem isSpaceRune_formatPrefix ' ' (by decide), List.filter_cons_of_pos (by simpa using hne),
        ih fun raw hraw => h raw (List.mem_cons_of_mem _ hraw)]

theorem row_client {c : Client} (h : ∀ raw ∈ c.addresses, ∃ p, Canonical p ∧ formatPrefix p = raw) : (row c).client = c := by
  unfold row Row.client
  dsimp only
  rw [fields_join h]

theorem normalizeAddresses_ok {raws : List Str} {ps qs : List Prefix} (h : normalizeAddresses raws ps = .ok qs)
    (hps : ∀ p ∈ ps, Canonical p) : ∀ p ∈ qs, Canonical p := by
  induction raws generalizing ps with
  | nil =>
    cases h
    exact hps
  | cons raw rest ih =>
    rw [normalizeAddresses, bind_eq_ok] at h
    obtain ⟨p, hp, h⟩ := h
    refine ih h ?_
    split
    · exact hps
    · intro q hq
      rcases List.mem_append.1 hq with hq | hq
      · exact hps q hq
      · rw [List.mem_singleton.1 hq]
        exact parsePrefix_canonical hp

/-- What `normalize` returns. -/
theorem normalize_ok {c c' : Client} {ps : List Prefix} (h : normalize c = .ok (c', ps)) :
    c'.id = c.id ∧ c'.prefixes = ps ∧ ∀ raw ∈ c'.addresses, ∃ p, Canonical p ∧ formatPrefix p = raw := by
  unfold normalize at h
  simp only [bind_eq_ok] at h
  obtain ⟨-, -, -, -, -, -, h⟩ := h
  split at h
  · cases h
  · rw [bind_eq_ok] at h
    obtain ⟨qs, hqs, h⟩ := h
    have hcanon := normalizeAddresses_ok hqs (by simp)
    cases h
    refine ⟨rfl, ?_, ?_⟩
    · have hread : ∀ p ∈ ps, (parsePrefix (formatPrefix p)).toOption = some p := fun p hp => by
        rw [parsePrefix_formatPrefix (hcanon p hp)]
        rfl
      unfold Client.prefixes
      rw [List.filterMap_map]
      conv_rhs => rw [← List.filterMap_some (l := ps)]
      exact List.filterMap_congr hread
    · intro raw hraw
      obtain ⟨p, hp, rfl⟩ := List.mem_map.1 hraw
      exact ⟨p, hcanon p hp, rfl⟩

theorem checkSave_ok {t : Letters} {clients : List Client} {c : Client} {ps : List Prefix} {index : Option ℕ}
    (h : checkSave t clients c ps = .ok index) :
    (∀ x ∈ clients, (c.id = 0 ∨ x.id ≠ c.id) → ∀ p ∈ x.prefixes, p ∉ ps) ∧ (c.id = 0 → index = none) ∧
      (c.id ≠ 0 → ∃ i old, index = some i ∧ clients[i]? = some old ∧ old.id = c.id) := by
  unfold checkSave at h
  split at h
  · cases h
  · rename_i hconflict
    split_ifs at h with h1 h2
    cases h
    refine ⟨fun x hx hid p hp hps => ?_, fun hid => by rw [indexOf, if_pos hid], fun hid => ?_⟩
    · have hother : x ∈ clients.filter (fun x => !(x.id = c.id && c.id ≠ 0)) := by
        rw [List.mem_filter]
        refine ⟨hx, ?_⟩
        rcases hid with hid | hid
        · simp [hid]
        · simp [hid]
      have hnone := List.findSome?_eq_none_iff.1 hconflict x hother
      unfold conflict at hnone
      split at hnone
      · cases hnone
      · obtain ⟨raw, hraw, hread⟩ := List.mem_filterMap.1 hp
        have hfree := List.findSome?_eq_none_iff.1 hnone raw hraw
        rw [Loops.eq_ok_of_toOption hread] at hfree
        simp [hps] at hfree
    · cases hi : indexOf clients c.id with
      | none => exact absurd ⟨hid, hi⟩ h1
      | some i =>
        rw [indexOf, if_neg hid, List.findIdx?_eq_some_iff_getElem] at hi
        obtain ⟨hlt, hold, -⟩ := hi
        exact ⟨i, clients[i], rfl, List.getElem?_eq_getElem hlt, by simpa using hold⟩

/-- What `SaveClient` does to the rows. -/
theorem saveClient_ok {t : Letters} {db db' : Repo} {c saved : Client} (h : db.saveClient t c = .ok (saved, db')) :
    saved = { c with id := saved.id } ∧ (c.id = 0 → saved.id = db.seq + 1) ∧ (c.id ≠ 0 → saved.id = c.id) ∧
      ∀ r, r ∈ db'.rows ↔ r = row saved ∨ (r ∈ db.rows ∧ r.id ≠ saved.id) := by
  unfold Repo.saveClient at h
  split_ifs at h with h0 h1 h2 h3
  · cases h
    refine ⟨rfl, fun _ => rfl, fun hne => absurd h0 hne, fun r => ?_⟩
    have hold : r ∈ db.rows → r.id ≠ db.seq + 1 := fun hr => by
      have hle := (db.range r hr).2
      omega
    simp only [Repo.insert, List.mem_append, List.mem_singleton]
    constructor
    · rintro (hr | hr)
      · exact Or.inr ⟨hr, hold hr⟩
      · exact Or.inl hr
    · rintro (hr | ⟨hr, -⟩)
      · exact Or.inr hr
      · exact Or.inl hr
  · cases h
    refine ⟨rfl, fun hz => absurd hz h0, fun _ => rfl, fun r => ?_⟩
    simp only [List.any_eq_true, decide_eq_true_eq] at h3
    obtain ⟨x, hx, hxid⟩ := h3
    simp only [Repo.update, List.mem_map]
    constructor
    · rintro ⟨y, hy, rfl⟩
      split
      · exact Or.inl rfl
      · rename_i hne
        exact Or.inr ⟨hy, hne⟩
    · rintro (rfl | ⟨hr, hne⟩)
      · exact ⟨x, hx, if_pos hxid⟩
      · exact ⟨r, hr, if_neg hne⟩

theorem Inv.id_le {s : Service} (h : Inv s) {c : Client} (hc : c ∈ s.clients) : 0 < c.id ∧ c.id ≤ s.repo.seq := by
  obtain ⟨r, hr, rfl⟩ := (h.stored c).1 hc
  exact s.repo.range r hr

/-- The list a save leaves holds the saved client in the place of those with its ID. -/
theorem mem_place {clients : List Client} (hids : (clients.map Client.id).Nodup) {saved : Client} {index : Option ℕ}
    (hnew : index = none → ∀ x ∈ clients, x.id ≠ saved.id)
    (hold : ∀ i, index = some i → ∃ old, clients[i]? = some old ∧ old.id = saved.id) :
    ((place clients saved index).map Client.id).Nodup ∧
      ∀ c, c ∈ place clients saved index ↔ c = saved ∨ (c ∈ clients ∧ c.id ≠ saved.id) := by
  cases index with
  | none =>
    refine ⟨Keyed.nodup_concat hids (hnew rfl), fun c => ?_⟩
    rw [place, List.mem_append, List.mem_singleton]
    constructor
    · rintro (hc | hc)
      · exact Or.inr ⟨hc, hnew rfl c hc⟩
      · exact Or.inl hc
    · rintro (hc | ⟨hc, -⟩)
      · exact Or.inr hc
      · exact Or.inl hc
  | some i =>
    obtain ⟨old, hi, hid⟩ := hold i rfl
    refine ⟨by rw [place, Keyed.map_set hi hid.symm]; exact hids, fun c => ?_⟩
    rw [place, ← Keyed.map_replace_eq_set hids hi hid.symm, List.mem_map]
    constructor
    · rintro ⟨x, hx, rfl⟩
      split
      · exact Or.inl rfl
      · rename_i hne
        exact Or.inr ⟨hx, hne⟩
    · rintro (rfl | ⟨hc, hne⟩)
      · exact ⟨old, List.mem_of_getElem? hi, if_pos hid⟩
      · exact ⟨c, hc, if_neg hne⟩

/-- A client in the place of those with its ID. -/
theorem Inv.put {s : Service} (h : Inv s) (t : Letters) {clients : List Client} {repo : Repo} {saved : Client}
    (hids : (clients.map Client.id).Nodup)
    (hmem : ∀ c, c ∈ clients ↔ c = saved ∨ (c ∈ s.clients ∧ c.id ≠ saved.id))
    (hrows : ∀ r, r ∈ repo.rows ↔ r = row saved ∨ (r ∈ s.repo.rows ∧ r.id ≠ saved.id))
    (htexts : ∀ raw ∈ saved.addresses, ∃ p, Canonical p ∧ formatPrefix p = raw)
    (hothers : ∀ x ∈ s.clients, x.id ≠ saved.id → ∀ p ∈ x.prefixes, p ∉ saved.prefixes) :
    Inv ⟨sortClients t clients, build (sortClients t clients), repo⟩ := by
  have hperm : (sortClients t clients).Perm clients := List.perm_insertionSort _ _
  refine ⟨rfl, (hperm.map Client.id).nodup_iff.2 hids, fun c => ?_, fun c hc => ?_, fun c hc c' hc' p hp hp' => ?_⟩
  · rw [hperm.mem_iff, hmem]
    constructor
    · rintro (rfl | ⟨hc, hne⟩)
      · exact ⟨row c, (hrows _).2 (Or.inl rfl), row_client htexts⟩
      · obtain ⟨r, hr, rfl⟩ := (h.stored c).1 hc
        exact ⟨r, (hrows r).2 (Or.inr ⟨hr, hne⟩), rfl⟩
    · rintro ⟨r, hr, rfl⟩
      rcases (hrows r).1 hr with rfl | ⟨hr, hne⟩
      · exact Or.inl (row_client htexts)
      · exact Or.inr ⟨(h.stored _).2 ⟨r, hr, rfl⟩, hne⟩
  · rcases (hmem c).1 (hperm.mem_iff.1 hc) with rfl | ⟨hc, -⟩
    · exact htexts
    · exact h.texts c hc
  · rcases (hmem c).1 (hperm.mem_iff.1 hc) with rfl | ⟨hc, hne⟩
    · rcases (hmem c').1 (hperm.mem_iff.1 hc') with rfl | ⟨hc', hne'⟩
      · rfl
      · exact absurd hp (hothers c' hc' hne' p hp')
    · rcases (hmem c').1 (hperm.mem_iff.1 hc') with rfl | ⟨hc', -⟩
      · exact absurd hp' (hothers c hc hne p hp)
      · exact h.apart c hc c' hc' p hp hp'

/-- **A save keeps the invariant.** -/
theorem save_inv {t : Letters} {s : Service} (h : Inv s) (fails : Option Err) (c : Client) : Inv (s.save t fails c).2 := by
  unfold Service.save
  cases hn : normalize c with
  | error e => exact h
  | ok r =>
    obtain ⟨n, ps⟩ := r
    dsimp only
    cases hcheck : checkSave t s.clients n ps with
    | error e => exact h
    | ok index =>
      cases fails with
      | some e => exact h
      | none =>
        dsimp only
        cases hsave : s.repo.saveClient t n with
        | error e => exact h
        | ok r =>
          obtain ⟨saved, repo⟩ := r
          dsimp only
          obtain ⟨-, hps, htexts⟩ := normalize_ok hn
          obtain ⟨hfree, hnone, hsome⟩ := checkSave_ok hcheck
          obtain ⟨hsaved, hfresh, hkept, hrows⟩ := saveClient_ok hsave
          have haddr : saved.addresses = n.addresses := by rw [hsaved]
          have hothers : ∀ x ∈ s.clients, x.id ≠ saved.id → ∀ p ∈ x.prefixes, p ∉ saved.prefixes := by
            intro x hx hne p hp
            have hsame : saved.prefixes = ps := by rw [← hps, Client.prefixes, Client.prefixes, haddr]
            rw [hsame]
            refine hfree x hx ?_ p hp
            by_cases hz : n.id = 0
            · exact Or.inl hz
            · exact Or.inr (hkept hz ▸ hne)
          obtain ⟨hids, hmem⟩ := @mem_place _ h.ids saved index
            (fun hi x hx => by
              by_cases hz : n.id = 0
              · have hle := (h.id_le hx).2
                have hseq := hfresh hz
                omega
              · obtain ⟨i, -, rfl, -⟩ := hsome hz
                cases hi)
            (fun i hi => by
              by_cases hz : n.id = 0
              · rw [hnone hz] at hi
                cases hi
              · obtain ⟨j, old, rfl, hold, hid⟩ := hsome hz
                cases hi
                exact ⟨old, hold, hid.trans (hkept hz).symm⟩)
          exact h.put t hids hmem hrows (by rw [haddr]; exact htexts) hothers

/-- **A delete keeps the invariant.** -/
theorem delete_inv {s : Service} (h : Inv s) (fails : Option Err) (id : ℤ) : Inv (s.delete fails id).2 := by
  unfold Service.delete
  cases hi : s.clients.findIdx? (fun x => x.id = id) with
  | none => exact h
  | some i =>
    cases fails with
    | some e => exact h
    | none =>
      dsimp only
      cases hdel : s.repo.deleteClient id with
      | error e => exact h
      | ok repo =>
        dsimp only
        obtain ⟨hlt, hold, -⟩ := List.findIdx?_eq_some_iff_getElem.1 hi
        obtain rfl : (s.clients[i]).id = id := by simpa using hold
        have hrepo : repo = s.repo.delete (s.clients[i]).id := by
          unfold Repo.deleteClient at hdel
          split at hdel
          · cases hdel
            rfl
          · cases hdel
        have hmem : ∀ c, c ∈ s.clients.eraseIdx i ↔ c ∈ s.clients ∧ c.id ≠ (s.clients[i]).id := by
          intro c
          rw [← Keyed.filter_ne_eq_eraseIdx h.ids (List.getElem?_eq_getElem hlt), List.mem_filter, decide_eq_true_eq]
        refine ⟨rfl, Keyed.nodup_eraseIdx h.ids i, fun c => ?_, fun c hc => h.texts c ((hmem c).1 hc).1,
          fun c hc c' hc' => h.apart c ((hmem c).1 hc).1 c' ((hmem c').1 hc').1⟩
        rw [hmem, h.stored, hrepo]
        simp only [Repo.delete, List.mem_filter, decide_eq_true_eq]
        constructor
        · rintro ⟨⟨r, hr, rfl⟩, hne⟩
          exact ⟨r, ⟨hr, hne⟩, rfl⟩
        · rintro ⟨r, ⟨hr, hne⟩, rfl⟩
          exact ⟨⟨r, hr, rfl⟩, hne⟩

/-- **A new start finds what was saved.** -/
theorem start_inv {t : Letters} {s s' : Service} (h : Inv s) (hs : start t s.repo = .ok s') : Inv s' := by
  unfold start Repo.loadClients at hs
  rw [bind_eq_ok] at hs
  obtain ⟨clients, hload, hs⟩ := hs
  split at hload
  · cases hload
  · cases hload
    cases hs
    have hperm : ((t.byName s.repo.rows).map Row.client).Perm (s.repo.rows.map Row.client) := (t.perm _).map _
    have hmem : ∀ c, c ∈ (t.byName s.repo.rows).map Row.client ↔ c ∈ s.clients := by
      intro c
      rw [hperm.mem_iff, List.mem_map, h.stored]
    refine ⟨rfl, ?_, fun c => ?_, fun c hc => h.texts c ((hmem c).1 hc),
      fun c hc c' hc' => h.apart c ((hmem c).1 hc) c' ((hmem c').1 hc')⟩
    · rw [(hperm.map Client.id).nodup_iff, List.map_map]
      exact s.repo.nodup
    · rw [hmem, h.stored]

theorem reachable_inv {t : Letters} {s : Service} (h : Reachable t s) : Inv s := by
  induction h with
  | first hs =>
    have hempty : Inv ⟨[], build [], {}⟩ := by
      refine ⟨rfl, by simp, by simp, by simp, ?_⟩
      intro c hc
      cases hc
    exact start_inv hempty hs
  | @step s fails c _ ih =>
    cases c with
    | create c => exact save_inv ih fails _
    | update id c =>
      rw [Service.step]
      split
      · exact ih
      · exact save_inv ih fails _
    | delete id => exact delete_inv ih fails id
  | restart _ hs ih => exact start_inv ih hs

/-- **The client of an address** owns its longest network; no network has two owners, and every network that is read is
written and read back. -/
theorem lookup_longest (t : Letters) {s : Service} (h : Reachable t s) :
    (∀ a c, s.lookup a = some c ↔ Longest s.clients a.unmap.ip c) ∧
      (∀ a, s.lookup a = none ↔ ∀ c ∈ s.clients, c.enabled = true → ∀ p ∈ c.prefixes, ¬ p.Covers a.unmap.ip) ∧
      (∀ c ∈ s.clients, ∀ raw ∈ c.addresses, ∃ p, parsePrefix raw = .ok p) ∧ Apart s.clients ∧
      (∀ raw p, parsePrefix raw = .ok p → parsePrefix (formatPrefix p) = .ok p) ∧
      ∀ raw q, parseNetipPrefix (trimSpaces raw) = some q → q.IsMapped → ∃ p, parsePrefix raw = .ok p ∧
        ∀ ip, ip.length = 4 → (p.Covers ip ↔ q.Covers (List.replicate 10 0 ++ [255, 255] ++ ip)) := by
  have hinv := reachable_inv h
  have hlook : ∀ a c, s.lookup a = some c ↔ Longest s.clients a.unmap.ip c := by
    intro a c
    rw [Service.lookup, hinv.current]
    exact build_lookup hinv.apart a c
  refine ⟨hlook, fun a => ?_, fun c hc raw hraw => ?_, hinv.apart,
    fun raw p hp => parsePrefix_formatPrefix (parsePrefix_canonical hp), fun raw q hq hm => parsePrefix_mapped hq hm⟩
  · constructor
    · intro hnone c hc he p hp hcov
      have hsome := lookup_isSome hinv.apart hc he hp hcov
      rw [← hinv.current] at hsome
      rw [Service.lookup] at hnone
      rw [hnone] at hsome
      cases hsome
    · intro hall
      cases hfound : s.lookup a with
      | none => rfl
      | some c =>
        obtain ⟨hc, he, p, hp, hcov, -⟩ := (hlook a c).1 hfound
        exact absurd hcov (hall c hc he p hp)
  · obtain ⟨p, hp, rfl⟩ := hinv.texts c hc raw hraw
    exact ⟨p, parsePrefix_formatPrefix hp⟩

namespace Sample

/-- A store and libraries for names in ASCII. -/
def letters : Letters where
  equalFold := equalFold
  toLower := lower
  sameName := equalFold
  byName rs := rs.insertionSort (fun a b => lower a.name ≤ lower b.name)
  perm rs := List.perm_insertionSort _ rs

def lan : Client := ⟨0, "lan".toList, ["10.0.0.0/8".toList], [], [], true⟩

/-- A host of the network, named by its IPv4-mapped address. -/
def desk : Client := ⟨0, "desk".toList, ["::ffff:10.1.2.3".toList], [], [], true⟩

def empty : Service := ⟨[], build [], .new⟩

def service : Service := (empty.step letters none (.create lan)).step letters none (.create desk)

theorem reachable : Reachable letters service := .step none _ (.step none _ (.first rfl))

end Sample

/-- The host, not the network around it. -/
theorem lookup_longest_desk :
    Longest Sample.service.clients [10, 1, 2, 3] { Sample.desk with id := 2, addresses := ["10.1.2.3".toList] } :=
  ((lookup_longest Sample.letters Sample.reachable).1 ⟨[10, 1, 2, 3], [], Or.inr (Or.inl rfl)⟩ _).1 (by decide +kernel)

end Velora.Clients
