import Velora.Dns.Handler

/-!
# Queries that are served

What `ServeDNS` guarantees while any number of queries and changes of the configuration run beside each other: `serving_sound`.
The node behind the handler sees one query after the other, each from a client that was allowed and let through, with one
question of a kind that is served, while it holds a token; it is answered from what the node says to it at that moment. The
tokens in a channel are always those of the queries that hold them, so that none waits for its own and none is lost.
-/

namespace Velora.Dns.Handling

open Velora.Lib Velora.Lib.Text Velora.Wire

variable {σ : Type}

/-! ### What is meant -/

/-- The event of the node that this is. -/
def Did.nodeEvent : Did σ → Option (Event σ)
  | .resolved ctx q _ => some (.query ctx q)
  | .changed e => some e.1
  | _ => none

/-- The events of the node, in their order. -/
def nodeEvents (history : List (Lib.Deed (Did σ))) : List (Event σ) :=
  (history.filterMap (fun e => e.what.nodeEvent)).reverse

/-- The queries that the limiter has turned away, from a count that was restored last. -/
def rejections (total : UInt64) : List (Lib.Deed (Did σ)) → UInt64
  | [] => total
  | e :: past =>
    match e.what with
    | .rejected _ _ => rejections total past + 1
    | .restored total => total
    | _ => rejections total past

/-- Call `i` holds a token of the channel. -/
def Holding (i channel : ℕ) (history : List (Lib.Deed (Did σ))) : Prop :=
  ⟨i, .acquired channel⟩ ∈ history ∧ ⟨i, .released channel⟩ ∉ history

/-- The tokens in a channel are those that are held, and they fit. -/
def Filled (history : List (Lib.Deed (Did σ))) (channel : ℕ) (c : Channel) : Prop :=
  ∃ holders : List ℕ, holders.Nodup ∧ (∀ i, i ∈ holders ↔ Holding i channel history) ∧ holders.length = c.length ∧
    c.length ≤ c.capacity

/-- The client is in one of the networks that were allowed when the query looked. -/
def Permitted (ip : Addr) (past : List (Did σ)) : Prop :=
  ∃ prefixes, .allowed prefixes ∈ past ∧ ∃ p ∈ prefixes, within ip.unmap p = true

/-- The message is in order. -/
structure Proper (s : Setup σ) (x : Incoming) (ip : Addr) : Prop where
  edns : (clientEDNS s.hmac x.q ip s.cookieSecret).2 = rcodeSuccess
  query : x.q.response = false ∧ x.q.opcode = opcodeQuery
  one : x.q.question.length = 1
  kind : supported x.q.question0.qtype = true ∧ x.q.question0.qclass = classINET

/-- The query may be given to the resolver. -/
def Ready (s : Setup σ) (x : Incoming) (ip : Addr) (past : List (Did σ)) : Prop :=
  x.ip = some ip ∧ Permitted ip past ∧ .admitted ip.unmap x.started ∈ past ∧ Proper s x ip

section

variable (s : Setup σ) (start : Handler σ)

/-- The node after what has happened. -/
def nodeAfter (history : List (Lib.Deed (Did σ))) : Node σ := start.node.run s.lib s.env s.options (nodeEvents history)

/-- What has gone before an event of a call: of its own events, and of all. -/
def Grounds (call : Call σ) (past : List (Did σ)) (history : List (Lib.Deed (Did σ))) : Did σ → Prop
  | .admitted client now => ∃ x ip, call = .query x ∧ x.ip = some ip ∧ client = ip.unmap ∧ now = x.started ∧ Permitted ip past
  | .acquired _ => ∃ x ip, call = .query x ∧ Ready s x ip past
  | .resolved ctx q result => (∃ x ip, call = .query x ∧ Ready s x ip past ∧ q = x.q ∧ ctx.client = some ip.unmap) ∧
      (∃ c, .acquired c ∈ past ∧ .released c ∉ past) ∧ result = (nodeAfter s start history).answer s.lib s.env ctx q
  | _ => True

/-- Every event of a call has its grounds. -/
abbrev Grounded (i : ℕ) (call : Call σ) : List (Lib.Deed (Did σ)) → Prop :=
  Lib.Deed.Grounded (fun past => Grounds s start call (Lib.Deed.own i past) past) i

end

/-- The query was let through to its message. -/
def Admitted (x : Incoming) (ip : Addr) (past : List (Did σ)) : Prop :=
  x.ip = some ip ∧ ∃ prefixes, (∃ p ∈ prefixes, within ip.unmap p = true) ∧ past = [.admitted ip.unmap x.started, .allowed prefixes]

/-- What a query can meet on its way, the last first, and what it is answered. -/
inductive Life (s : Setup σ) (x : Incoming) : List (Did σ) → Reply → Prop
  | unknown (hip : x.ip = none) : Life s x [] ⟨x.reply rcodeRefused, "refused", []⟩
  | refused (ip : Addr) (prefixes : List Ip.Prefix) (hip : x.ip = some ip) (hno : ∀ p ∈ prefixes, within ip.unmap p = false) :
    Life s x [.allowed prefixes] ⟨x.reply rcodeRefused, "refused", []⟩
  | limited (ip : Addr) (prefixes : List Ip.Prefix) (hip : x.ip = some ip) (hin : ∃ p ∈ prefixes, within ip.unmap p = true) :
    Life s x [.overloaded "rate_limit", .rejected ip.unmap x.started, .allowed prefixes]
      ⟨x.reply rcodeServerFailure, "rate_limit", []⟩
  | edns (ip : Addr) (past : List (Did σ)) (h : Admitted x ip past)
    (hno : (clientEDNS s.hmac x.q ip s.cookieSecret).2 ≠ rcodeSuccess) :
    Life s x past ⟨x.refuseEDNS (clientEDNS s.hmac x.q ip s.cookieSecret).1 (clientEDNS s.hmac x.q ip s.cookieSecret).2,
      "refused", []⟩
  | malformed (ip : Addr) (past : List (Did σ)) (h : Admitted x ip past)
    (hno : x.q.response = true ∨ x.q.question.length ≠ 1 ∨ x.q.opcode ≠ opcodeQuery) :
    Life s x past ⟨x.reply rcodeFormatError, "refused", []⟩
  | unsupported (ip : Addr) (past : List (Did σ)) (h : Admitted x ip past)
    (hno : supported x.q.question0.qtype = false ∨ x.q.question0.qclass ≠ classINET) :
    Life s x past ⟨x.reply rcodeRefused, "refused", []⟩
  | full (ip : Addr) (past : List (Did σ)) (c : ℕ) (h : Admitted x ip past) (hx : Proper s x ip) :
    Life s x (.overloaded "concurrency" :: .full c :: .chose c :: past) ⟨x.reply rcodeServerFailure, "overload", []⟩
  | failed (ip : Addr) (past : List (Did σ)) (c : ℕ) (ctx : Ctx σ) (e : Failure) (h : Admitted x ip past) (hx : Proper s x ip) :
    Life s x (.released c :: .resolved ctx x.q (.error e) :: .acquired c :: .chose c :: past)
      ⟨x.reply rcodeServerFailure, sourceText e.source, []⟩
  | answered (ip : Addr) (past : List (Did σ)) (c : ℕ) (ctx : Ctx σ) (res : Result) (h : Admitted x ip past)
    (hx : Proper s x ip) :
    Life s x (.released c :: .resolved ctx x.q (.ok res) :: .acquired c :: .chose c :: past)
      ⟨addResponseCookie res.message x.q (clientEDNS s.hmac x.q ip s.cookieSecret).1, sourceText res.source, res.upstream⟩

/-- What a query leaves behind, the last first: its answer, its count and, with one question, its entry. -/
def effects (s : Setup σ) (x : Incoming) (r : Reply) : List (Did σ) :=
  (if x.q.question.length = 1 then [.recorded (entryOf s x r)] else []) ++
    [.observed (x.kind s.lib) r.source (sent s x r.message).rcode, .wrote (sent s x r.message)]

/-- What has happened for a query that is done. -/
def Served (s : Setup σ) (x : Incoming) (past : List (Did σ)) : Prop :=
  ∃ before r, past = effects s x r ++ before ∧ Life s x before r

/-! ### The protocol of a call -/

section

variable (s : Setup σ)

/-- What a call may do next when these events are behind it. -/
def Allows (call : Call σ) (past : List (Did σ)) : Op σ → Prop
  | .allow client now => ∃ x ip, call = .query x ∧ x.ip = some ip ∧ client = ip.unmap ∧ now = x.started ∧ Permitted ip past
  | .acquire c => .chose c ∈ past ∧ (∀ d, .acquired d ∉ past) ∧ (∀ d, .released d ∉ past) ∧
      ∃ x ip, call = .query x ∧ Ready s x ip past
  | .release c => .acquired c ∈ past ∧ .released c ∉ past
  | .resolve client q => (∃ x ip, call = .query x ∧ Ready s x ip past ∧ q = x.q ∧ client = ip.unmap) ∧
      ∃ c, .acquired c ∈ past ∧ .released c ∉ past
  | _ => True

/-- What has happened when an operation has answered. -/
def Learns : (op : Op σ) → Ans op → List (Did σ) → Prop
  | .prefixes, a, es => es = [.allowed a]
  | .slots, a, es => es = [.chose a]
  | .allow client now, a, es => es = [if a then .admitted client now else .rejected client now]
  | .acquire c, a, es => es = [if a then .acquired c else .full c]
  | .release c, _, es => es = [.released c]
  | .resolve _ q, a, es => ∃ ctx, es = [.resolved ctx q a]
  | .overloaded reason, _, es => es = [.overloaded reason]
  | .writeMsg m, _, es => es = [.wrote m]
  | .observe kind source rcode, _, es => es = [.observed kind source rcode]
  | .record e, _, es => es = [.recorded e]
  | _, _, _ => True

def protocol : Protocol (Call σ) (Op σ) Ans (Did σ) := ⟨Allows s, Learns⟩

/-- What holds of a call that is done. -/
def Ended (call : Call σ) (_ : Unit) (past : List (Did σ)) : Prop := ∀ x, call = .query x → Served s x past

end

section Body

variable {s : Setup σ} {x : Incoming} {past : List (Did σ)}

theorem Admitted.permitted {ip : Addr} (h : Admitted x ip past) : Permitted ip past := by
  obtain ⟨-, prefixes, hin, rfl⟩ := h
  exact ⟨prefixes, by simp, hin⟩

theorem Admitted.ready {ip : Addr} (h : Admitted x ip past) (hx : Proper s x ip) : Ready s x ip past := by
  refine ⟨h.1, h.permitted, ?_, hx⟩
  obtain ⟨-, prefixes, -, rfl⟩ := h
  exact List.mem_cons_self

theorem Permitted.cons {ip : Addr} (h : Permitted ip past) (d : Did σ) : Permitted ip (d :: past) := by
  obtain ⟨prefixes, hmem, hin⟩ := h
  exact ⟨prefixes, List.mem_cons_of_mem d hmem, hin⟩

theorem Ready.cons {ip : Addr} (h : Ready s x ip past) (d : Did σ) : Ready s x ip (d :: past) :=
  ⟨h.1, h.2.1.cons d, List.mem_cons_of_mem d h.2.2.1, h.2.2.2⟩

theorem obeys_takeSlot {ip : Addr} (h : Admitted x ip past) (hx : Proper s x ip) :
    (takeSlot x ip.unmap (clientEDNS s.hmac x.q ip s.cookieSecret).1).obeys ((protocol s).spec (.query x))
      (fun r past' => Life s x past' r) past := by
  have hready : Ready s x ip past := h.ready hx
  have hnone : (∀ d, Did.acquired d ∉ past) ∧ ∀ d, Did.released d ∉ past := by
    obtain ⟨-, prefixes, -, rfl⟩ := h
    exact ⟨fun d hd => by simp at hd, fun d hd => by simp at hd⟩
  refine ⟨trivial, fun c es hes => ?_⟩
  obtain rfl : es = [.chose c] := hes
  refine ⟨⟨List.mem_cons_self, fun d hd => ?_, fun d hd => ?_, x, ip, rfl, hready.cons _⟩, fun free es hes => ?_⟩
  · exact hnone.1 d (by simpa using hd)
  · exact hnone.2 d (by simpa using hd)
  cases free with
  | false =>
    obtain rfl : es = [.full c] := hes
    refine ⟨trivial, fun _ es hes => ?_⟩
    obtain rfl : es = [.overloaded "concurrency"] := hes
    exact Life.full ip past c h hx
  | true =>
    obtain rfl : es = [.acquired c] := hes
    have hholds : Did.acquired c ∈ Did.acquired c :: .chose c :: past ∧ Did.released c ∉ Did.acquired c :: .chose c :: past :=
      ⟨List.mem_cons_self, fun hd => hnone.2 c (by simpa using hd)⟩
    refine ⟨⟨⟨x, ip, rfl, (hready.cons _).cons _, rfl, rfl⟩, c, hholds⟩, fun result es hes => ?_⟩
    obtain ⟨ctx, rfl⟩ : ∃ ctx, es = [.resolved ctx x.q result] := hes
    refine ⟨⟨List.mem_cons_of_mem _ hholds.1, fun hd => hholds.2 (by simpa using hd)⟩, fun _ es hes => ?_⟩
    obtain rfl : es = [.released c] := hes
    cases result with
    | error e => exact Life.failed ip past c ctx e h hx
    | ok res => exact Life.answered ip past c ctx res h hx

theorem obeys_checkQuery {ip : Addr} (h : Admitted x ip past) :
    (checkQuery s x ip).obeys ((protocol s).spec (.query x)) (fun r past' => Life s x past' r) past := by
  unfold checkQuery
  dsimp only
  split
  · rename_i hedns
    exact Life.edns ip past h hedns
  · rename_i hedns
    split
    · rename_i hform
      exact Life.malformed ip past h hform
    · rename_i hform
      split
      · rename_i hkind
        exact Life.unsupported ip past h hkind
      · rename_i hkind
        rw [not_or, not_or] at hform
        rw [not_or] at hkind
        exact obeys_takeSlot h ⟨not_not.1 hedns, ⟨Bool.eq_false_iff.2 hform.1, not_not.1 hform.2.2⟩, not_not.1 hform.2.1,
          Bool.eq_true_of_not_eq_false hkind.1, not_not.1 hkind.2⟩

theorem obeys_replyTo (s : Setup σ) (x : Incoming) :
    (replyTo s x).obeys ((protocol s).spec (.query x)) (fun r past' => Life s x past' r) [] := by
  unfold replyTo
  split
  · rename_i hip
    exact Life.unknown hip
  · rename_i ip hip
    refine ⟨trivial, fun prefixes es hes => ?_⟩
    obtain rfl : es = [.allowed prefixes] := hes
    show Prog.obeys _ (if _ then _ else _) _ _
    split
    · rename_i hany
      have hin : ∃ p ∈ prefixes, within ip.unmap p = true := List.any_eq_true.1 hany
      refine ⟨⟨x, ip, rfl, hip, rfl, rfl, prefixes, List.mem_cons_self, hin⟩, fun ok es hes => ?_⟩
      cases ok with
      | false =>
        obtain rfl : es = [.rejected ip.unmap x.started] := hes
        refine ⟨trivial, fun _ es hes => ?_⟩
        obtain rfl : es = [.overloaded "rate_limit"] := hes
        exact Life.limited ip prefixes hip hin
      | true =>
        obtain rfl : es = [.admitted ip.unmap x.started] := hes
        exact obeys_checkQuery ⟨hip, prefixes, hin, rfl⟩
    · rename_i hany
      refine Life.refused ip prefixes hip fun p hp => ?_
      exact Bool.eq_false_iff.2 fun hin => hany (List.any_eq_true.2 ⟨p, hp, hin⟩)

theorem obeys_finish {r : Reply} {before : List (Did σ)} (h : Life s x before r) :
    (finish s x r).obeys ((protocol s).spec (.query x)) (Ended s (.query x)) before := by
  refine ⟨trivial, fun _ es hes => ?_⟩
  obtain rfl : es = [.wrote (sent s x r.message)] := hes
  refine ⟨trivial, fun _ es hes => ?_⟩
  obtain rfl : es = [.observed (x.kind s.lib) r.source (sent s x r.message).rcode] := hes
  split
  · rename_i hone
    refine ⟨trivial, fun _ es hes => ?_⟩
    obtain rfl : es = [.recorded (entryOf s x r)] := hes
    rintro y hy
    cases hy
    refine ⟨before, r, ?_, h⟩
    rw [effects, if_pos hone]
    rfl
  · rename_i hone
    rintro y hy
    cases hy
    refine ⟨before, r, ?_, h⟩
    rw [effects, if_neg hone]
    rfl

/-- **A call keeps to the protocol.** -/
theorem obeys_body (s : Setup σ) (call : Call σ) : (call.body s).obeys ((protocol s).spec call) (Ended s call) [] := by
  cases call with
  | query x => exact Prog.obeys_bind.2 (Protocol.obeys_mono (obeys_replyTo s x) fun r past' h => obeys_finish h)
  | _ => exact ⟨trivial, fun _ _ _ x hx => by cases hx⟩

end Body

/-! ### What every step keeps -/

section

variable {s : Setup σ} {start : Handler σ}

/-- What holds of the handler in every run. -/
structure Inv (s : Setup σ) (start : Handler σ) (h : Handler σ) : Prop where
  node : h.node = nodeAfter s start h.history
  rejected : h.rateLimit.rejectedTotal = rejections start.rateLimit.rejectedTotal h.history
  filled : ∀ channel c, h.channels[channel]? = some c → Filled h.history channel c
  chosen : ∀ i channel, ⟨i, .chose channel⟩ ∈ h.history → channel < h.channels.length
  acquired : ∀ i channel, ⟨i, .acquired channel⟩ ∈ h.history → channel < h.channels.length
  nonempty : h.channels ≠ []

variable {h h' : Handler σ} {i : ℕ} {what : Did σ} {history : List (Lib.Deed (Did σ))}

theorem nodeEvents_cons (e : Lib.Deed (Did σ)) :
    nodeEvents (e :: history) = nodeEvents history ++ e.what.nodeEvent.toList := by
  rw [nodeEvents, nodeEvents, List.filterMap_cons]
  cases e.what.nodeEvent with
  | none => exact (List.append_nil _).symm
  | some e => exact List.reverse_cons

theorem nodeAfter_cons_none (hnode : what.nodeEvent = none) : nodeAfter s start (⟨i, what⟩ :: history) = nodeAfter s start history := by
  rw [nodeAfter, nodeEvents_cons, hnode, Option.toList_none, List.append_nil, nodeAfter]

theorem nodeAfter_cons_some {e : Event σ} (hnode : what.nodeEvent = some e) :
    nodeAfter s start (⟨i, what⟩ :: history) = (nodeAfter s start history).step s.lib s.env s.options e := by
  rw [nodeAfter, nodeEvents_cons, hnode, Node.run, List.foldl_append, nodeAfter, Node.run]
  rfl

/-- Who holds a token of a channel does not change by what is not about the tokens of that channel. -/
theorem holding_cons {j channel : ℕ} (ha : what ≠ .acquired channel) (hr : what ≠ .released channel) :
    Holding j channel (⟨i, what⟩ :: history) ↔ Holding j channel history := by
  have hne : ∀ d : Did σ, what ≠ d → ((⟨j, d⟩ : Lib.Deed (Did σ)) ∈ ⟨i, what⟩ :: history ↔ ⟨j, d⟩ ∈ history) := by
    intro d hd
    rw [List.mem_cons]
    exact or_iff_right fun heq => hd (congrArg Lib.Deed.what heq).symm
  rw [Holding, Holding, hne _ ha, hne _ hr]

/-- What one call does is not about the tokens of another. -/
theorem holding_cons_of_ne {j channel : ℕ} (hij : j ≠ i) :
    Holding j channel (⟨i, what⟩ :: history) ↔ Holding j channel history := by
  have hne : ∀ d : Did σ, ((⟨j, d⟩ : Lib.Deed (Did σ)) ∈ ⟨i, what⟩ :: history ↔ ⟨j, d⟩ ∈ history) := by
    intro d
    rw [List.mem_cons]
    exact or_iff_right fun heq => hij (congrArg Lib.Deed.thread heq)
  rw [Holding, Holding, hne, hne]

theorem Filled.congr {channel : ℕ} {c : Channel} {history' : List (Lib.Deed (Did σ))} (hf : Filled history channel c)
    (hsame : ∀ j, Holding j channel history' ↔ Holding j channel history) : Filled history' channel c := by
  obtain ⟨holders, hnodup, hmem, hlen, hle⟩ := hf
  exact ⟨holders, hnodup, fun j => (hmem j).trans (hsame j).symm, hlen, hle⟩

namespace Inv

/-- An event that is not about tokens. -/
theorem told (hinv : Inv s start h) (hhistory : h'.history = ⟨i, what⟩ :: h.history)
    (hnode : h'.node = nodeAfter s start (⟨i, what⟩ :: h.history))
    (hcount : h'.rateLimit.rejectedTotal = rejections start.rateLimit.rejectedTotal (⟨i, what⟩ :: h.history))
    (hchannels : h'.channels = h.channels) (ha : ∀ channel, what ≠ .acquired channel) (hr : ∀ channel, what ≠ .released channel)
    (hchose : ∀ channel, what = .chose channel → channel < h.channels.length) : Inv s start h' where
  node := by rw [hhistory, hnode]
  rejected := by rw [hhistory, hcount]
  filled channel c hc := by
    rw [hchannels] at hc
    rw [hhistory]
    exact (hinv.filled channel c hc).congr fun j => holding_cons (ha channel) (hr channel)
  chosen j channel hmem := by
    rw [hhistory] at hmem
    rw [hchannels]
    rcases List.mem_cons.1 hmem with heq | hmem
    · exact hchose channel (congrArg Lib.Deed.what heq).symm
    · exact hinv.chosen j channel hmem
  acquired j channel hmem := by
    rw [hhistory] at hmem
    rw [hchannels]
    rcases List.mem_cons.1 hmem with heq | hmem
    · exact absurd (congrArg Lib.Deed.what heq).symm (ha channel)
    · exact hinv.acquired j channel hmem
  nonempty := by
    rw [hchannels]
    exact hinv.nonempty

/-- No event. -/
theorem untold (hinv : Inv s start h) (hhistory : h'.history = h.history) (hnode : h'.node = h.node)
    (hcount : h'.rateLimit.rejectedTotal = h.rateLimit.rejectedTotal) (hchannels : h'.channels = h.channels) : Inv s start h' where
  node := by rw [hhistory, hnode, hinv.node]
  rejected := by rw [hhistory, hcount, hinv.rejected]
  filled := by rw [hhistory, hchannels]; exact hinv.filled
  chosen := by rw [hhistory, hchannels]; exact hinv.chosen
  acquired := by rw [hhistory, hchannels]; exact hinv.acquired
  nonempty := by rw [hchannels]; exact hinv.nonempty

/-- New slots. -/
theorem updateConfig (hinv : Inv s start h) (allowed : List Ip.Prefix) (maxConcurrent : ℕ) :
    Inv s start { h with allowed, channels := h.channels ++ [⟨maxConcurrent, 0⟩] } where
  node := hinv.node
  rejected := hinv.rejected
  filled channel c hc := by
    rw [List.getElem?_append] at hc
    split at hc
    · exact hinv.filled channel c hc
    · rename_i hlt
      rw [List.getElem?_singleton] at hc
      split at hc
      · cases hc
        refine ⟨[], List.nodup_nil, fun j => ⟨fun hj => (by cases hj), fun hj => ?_⟩, rfl, Nat.zero_le _⟩
        exact absurd (hinv.acquired j channel hj.1) hlt
      · cases hc
  chosen j channel hmem := by
    have hlt := hinv.chosen j channel hmem
    rw [List.length_append]
    omega
  acquired j channel hmem := by
    have hlt := hinv.acquired j channel hmem
    rw [List.length_append]
    omega
  nonempty := List.append_ne_nil_of_right_ne_nil h.channels (List.cons_ne_nil _ _)

/-- The tokens of one channel change, and who holds them. -/
theorem setLength (hinv : Inv s start h) {channel : ℕ} {c : Channel} (hc : h.channels[channel]? = some c) {length : ℕ}
    (hnode : what.nodeEvent = none)
    (hcount : ∀ total, rejections total (⟨i, what⟩ :: h.history) = rejections total h.history)
    (hother : ∀ d, d ≠ channel → what ≠ .acquired d ∧ what ≠ .released d) (hchose : ∀ d, what ≠ .chose d)
    (hfilled : Filled (⟨i, what⟩ :: h.history) channel { c with length }) :
    Inv s start ((h.setLength channel c length).tell i what) where
  node := hinv.node.trans (nodeAfter_cons_none hnode).symm
  rejected := hinv.rejected.trans (hcount _).symm
  filled d e hd := by
    change (h.channels.set channel { c with length })[d]? = some e at hd
    by_cases hdc : d = channel
    · subst hdc
      rw [List.getElem?_set_self (List.getElem?_eq_some_iff.1 hc).1] at hd
      cases hd
      exact hfilled
    · rw [List.getElem?_set_ne (Ne.symm hdc)] at hd
      exact (hinv.filled d e hd).congr fun j => holding_cons (hother d hdc).1 (hother d hdc).2
  chosen j d hmem := by
    change d < (h.channels.set channel { c with length }).length
    rw [List.length_set]
    rcases List.mem_cons.1 hmem with heq | hmem
    · exact absurd (congrArg Lib.Deed.what heq).symm (hchose d)
    · exact hinv.chosen j d hmem
  acquired j d hmem := by
    change d < (h.channels.set channel { c with length }).length
    rw [List.length_set]
    rcases List.mem_cons.1 hmem with heq | hmem
    · by_cases hdc : d = channel
      · exact hdc ▸ (List.getElem?_eq_some_iff.1 hc).1
      · exact absurd (congrArg Lib.Deed.what heq).symm (hother d hdc).1
    · exact hinv.acquired j d hmem
  nonempty := by
    change h.channels.set channel { c with length } ≠ []
    exact fun hnil => hinv.nonempty ((List.set_eq_nil_iff _ _).1 hnil)

/-- A token is taken by a call that has none. -/
theorem acquire (hinv : Inv s start h) {channel : ℕ} {c : Channel} (hc : h.channels[channel]? = some c)
    (hroom : c.length < c.capacity) (hnone : ∀ d, ⟨i, .acquired d⟩ ∉ h.history) (hnever : ∀ d, ⟨i, .released d⟩ ∉ h.history) :
    Inv s start ((h.setLength channel c (c.length + 1)).tell i (.acquired channel)) := by
  obtain ⟨holders, hnodup, hmem, hlen, -⟩ := hinv.filled channel c hc
  refine hinv.setLength hc rfl (fun _ => rfl) (fun d hd => ⟨fun heq => hd (by cases heq; rfl), by rintro ⟨⟩⟩) (by rintro d ⟨⟩) ?_
  refine ⟨i :: holders, List.nodup_cons.2 ⟨fun hi => hnone channel ((hmem i).1 hi).1, hnodup⟩, fun j => ?_,
    by rw [List.length_cons, hlen], hroom⟩
  rw [List.mem_cons, hmem j]
  by_cases hji : j = i
  · subst hji
    refine iff_of_true (Or.inl rfl) ⟨List.mem_cons_self, fun hr => ?_⟩
    rcases List.mem_cons.1 hr with heq | hr
    · cases heq
    · exact hnever channel hr
  · rw [holding_cons_of_ne hji]
    exact or_iff_right hji

/-- A token is given back. -/
theorem release (hinv : Inv s start h) {channel : ℕ} {c : Channel} (hc : h.channels[channel]? = some c)
    (hholds : Holding i channel h.history) :
    Inv s start ((h.setLength channel c (c.length - 1)).tell i (.released channel)) := by
  obtain ⟨holders, hnodup, hmem, hlen, hle⟩ := hinv.filled channel c hc
  refine hinv.setLength hc rfl (fun _ => rfl) (fun d hd => ⟨by rintro ⟨⟩, fun heq => hd (by cases heq; rfl)⟩) (by rintro d ⟨⟩) ?_
  refine ⟨holders.erase i, hnodup.erase i, fun j => ?_, ?_, (Nat.sub_le _ _).trans hle⟩
  · rw [hnodup.mem_erase_iff, hmem j]
    by_cases hji : j = i
    · subst hji
      exact iff_of_false (fun hj => hj.1 rfl) (fun hj => hj.2 List.mem_cons_self)
    · rw [holding_cons_of_ne hji]
      exact and_iff_right hji
  · rw [List.length_erase_of_mem ((hmem i).2 hholds), hlen]

/-- Who holds a token finds one in the channel. -/
theorem length_pos (hinv : Inv s start h) {channel : ℕ} (hholds : Holding i channel h.history) :
    ∃ c, h.channels[channel]? = some c ∧ 0 < c.length := by
  have hlt : channel < h.channels.length := hinv.acquired i channel hholds.1
  refine ⟨h.channels[channel], List.getElem?_eq_getElem hlt, ?_⟩
  obtain ⟨holders, -, hmem, hlen, -⟩ := hinv.filled channel _ (List.getElem?_eq_getElem hlt)
  rw [← hlen]
  exact List.length_pos_of_mem ((hmem i).2 hholds)

end Inv

/-- The count goes up with every query that is turned away. -/
theorem allow_rejectedTotal (r : RateLimitState) (client : Addr) (now : ℕ) :
    (r.allow client now).2.rejectedTotal = if (r.allow client now).1 then r.rejectedTotal else r.rejectedTotal + 1 := by
  unfold RateLimitState.allow
  split
  · rfl
  · dsimp only
    split <;> rfl

/-! ### Every operation -/

/-- What an operation of a call does: it keeps the invariant, what has happened has its grounds, and the call knows what the
answer tells it. -/
def Stepped (s : Setup σ) (start : Handler σ) (i : ℕ) (call : Call σ) (op : Op σ) (a : Ans op) (h h' : Handler σ) : Prop :=
  Inv s start h' ∧ Grounded s start i call h'.history ∧
    ∃ es, h'.history = es.map (fun w => ⟨i, w⟩) ++ h.history ∧ Learns op a es

variable {call : Call σ} {op : Op σ} {a : Ans op}

theorem stepped_told (hinv : Inv s start h') (hg : Grounded s start i call h.history)
    (hhistory : h'.history = ⟨i, what⟩ :: h.history) (hlearns : Learns op a [what])
    (hgrounds : Grounds s start call (Lib.Deed.own i h.history) h.history what) : Stepped s start i call op a h h' := by
  refine ⟨hinv, ?_, [what], hhistory, hlearns⟩
  rw [hhistory]
  exact ⟨fun _ => hgrounds, hg⟩

/-- An event that changes nothing else. -/
theorem stepped_quiet (hinv : Inv s start h) (hg : Grounded s start i call h.history) (hnode : what.nodeEvent = none)
    (hcount : ∀ total, rejections total (⟨i, what⟩ :: h.history) = rejections total h.history)
    (ha : ∀ channel, what ≠ .acquired channel) (hr : ∀ channel, what ≠ .released channel)
    (hchose : ∀ channel, what = .chose channel → channel < h.channels.length) (hlearns : Learns op a [what])
    (hgrounds : Grounds s start call (Lib.Deed.own i h.history) h.history what) :
    Stepped s start i call op a h (h.tell i what) :=
  stepped_told (hinv.told rfl (hinv.node.trans (nodeAfter_cons_none hnode).symm) (hinv.rejected.trans (hcount _).symm) rfl ha hr
    hchose) hg rfl hlearns hgrounds

/-- **One operation** of a call. -/
theorem serve_stepped (hinv : Inv s start h) (hg : Grounded s start i call h.history)
    (hallows : Allows s call (Lib.Deed.own i h.history) op) {x : Outside σ} (hact : serve s i op x h = some (a, h')) :
    Stepped s start i call op a h h' := by
  cases op with
  | prefixes =>
    cases hact
    exact stepped_quiet hinv hg rfl (fun _ => rfl) (by rintro c ⟨⟩) (by rintro c ⟨⟩) (by rintro c ⟨⟩) rfl trivial
  | slots =>
    cases hact
    have hlast : h.channels.length - 1 < h.channels.length := Nat.sub_one_lt (List.length_pos_iff.2 hinv.nonempty).ne'
    refine stepped_quiet hinv hg rfl (fun _ => rfl) (by rintro c ⟨⟩) (by rintro c ⟨⟩) (fun c hc => ?_) rfl trivial
    cases hc
    exact hlast
  | allow client now =>
    have htotal := allow_rejectedTotal h.rateLimit client now
    simp only [serve] at hact
    cases hallow : h.rateLimit.allow client now with
    | mk ok rateLimit =>
      rw [hallow] at hact htotal
      dsimp only at hact htotal
      cases ok with
      | true =>
        cases hact
        exact stepped_told (hinv.told rfl (hinv.node.trans (nodeAfter_cons_none rfl).symm) (htotal.trans hinv.rejected) rfl
          (by rintro c ⟨⟩) (by rintro c ⟨⟩) (by rintro c ⟨⟩)) hg rfl rfl hallows
      | false =>
        cases hact
        refine stepped_told (hinv.told rfl (hinv.node.trans (nodeAfter_cons_none rfl).symm) ?_ rfl
          (by rintro c ⟨⟩) (by rintro c ⟨⟩) (by rintro c ⟨⟩)) hg rfl rfl trivial
        exact htotal.trans (congrArg (· + 1) hinv.rejected)
  | acquire channel =>
    obtain ⟨-, hnone, hnever, hready⟩ := hallows
    simp only [serve] at hact
    split at hact
    · cases hact
    · rename_i c hc
      split at hact
      · rename_i hroom
        cases hact
        exact stepped_told (hinv.acquire hc hroom (fun d hd => hnone d (Lib.Deed.mem_own.2 hd))
          fun d hd => hnever d (Lib.Deed.mem_own.2 hd)) hg rfl rfl hready
      · cases hact
        exact stepped_quiet hinv hg rfl (fun _ => rfl) (by rintro c ⟨⟩) (by rintro c ⟨⟩) (by rintro c ⟨⟩) rfl trivial
  | release channel =>
    have hholds : Holding i channel h.history :=
      ⟨Lib.Deed.mem_own.1 hallows.1, fun hr => hallows.2 (Lib.Deed.mem_own.2 hr)⟩
    simp only [serve] at hact
    split at hact
    · cases hact
    · rename_i c hc
      split at hact
      · cases hact
        exact stepped_told (hinv.release hc hholds) hg rfl rfl trivial
      · cases hact
  | resolve client q =>
    obtain ⟨⟨y, ip, hcall, hready, rfl, rfl⟩, hholds⟩ := hallows
    cases hact
    have hanswer : h.node.answer s.lib s.env (x.ctx.withClient ip.unmap) y.q =
        (nodeAfter s start h.history).answer s.lib s.env (x.ctx.withClient ip.unmap) y.q := by rw [hinv.node]
    refine stepped_told (hinv.told rfl ?_ hinv.rejected rfl (by rintro c ⟨⟩) (by rintro c ⟨⟩) (by rintro c ⟨⟩)) hg rfl
      ⟨x.ctx.withClient ip.unmap, rfl⟩ ⟨⟨y, ip, hcall, hready, rfl, rfl⟩, hholds, hanswer⟩
    rw [nodeAfter_cons_some rfl, ← hinv.node]
    rfl
  | updateConfig allowed maxConcurrent =>
    cases hact
    exact ⟨hinv.updateConfig allowed maxConcurrent, hg, [], rfl, trivial⟩
  | configure enabled globalQPS clientQPS burst =>
    cases hact
    exact ⟨hinv.untold rfl rfl rfl rfl, hg, [], rfl, trivial⟩
  | restoreRejections total =>
    cases hact
    exact stepped_told (hinv.told rfl (hinv.node.trans (nodeAfter_cons_none rfl).symm) rfl rfl (by rintro c ⟨⟩)
      (by rintro c ⟨⟩) (by rintro c ⟨⟩)) hg rfl trivial trivial
  | change e =>
    cases hact
    refine stepped_told (hinv.told rfl ?_ hinv.rejected rfl (by rintro c ⟨⟩) (by rintro c ⟨⟩) (by rintro c ⟨⟩)) hg rfl trivial trivial
    rw [nodeAfter_cons_some rfl, ← hinv.node]
    rfl
  | _ =>
    cases hact
    exact stepped_quiet hinv hg rfl (fun _ => rfl) (by rintro c ⟨⟩) (by rintro c ⟨⟩) (by rintro c ⟨⟩) rfl trivial

end

/-! ### Whole runs -/

section

variable {s : Setup σ} {x : Incoming} {past : List (Did σ)} {r : Reply}

/-- What is taken is given back. -/
theorem Life.released (h : Life s x past r) {channel : ℕ} (ha : Did.acquired channel ∈ past) : Did.released channel ∈ past := by
  have hadmitted : ∀ {ip : Addr} {past : List (Did σ)}, Admitted x ip past → Did.acquired channel ∉ past := by
    rintro ip past ⟨-, prefixes, -, rfl⟩ hmem
    simp at hmem
  cases h with
  | edns ip past h => exact absurd ha (hadmitted h)
  | malformed ip past h => exact absurd ha (hadmitted h)
  | unsupported ip past h => exact absurd ha (hadmitted h)
  | full ip past c h => exact absurd (by simpa using ha) (hadmitted h)
  | failed ip past c ctx e h =>
    have hc : channel = c := by simpa [hadmitted h] using ha
    exact hc ▸ List.mem_cons_self
  | answered ip past c ctx res h =>
    have hc : channel = c := by simpa [hadmitted h] using ha
    exact hc ▸ List.mem_cons_self
  | _ => simp at ha

/-- A message of the handler's own can be packed: a code above 15 comes with an OPT record. -/
theorem Life.packs (h : Life s x past r) : (r.message.rcode ≤ 15 ∨ r.message.isEdns0.isSome = true) ∨
    ∃ ctx res, Did.resolved ctx x.q (.ok res) ∈ past := by
  have hreply : ∀ rcode ≤ 15, (x.reply rcode).rcode ≤ 15 := fun _ hle => hle
  cases h with
  | edns ip past h hno =>
    refine Or.inl ?_
    have hrcode : ∀ (m : Msg) (cookie : Option (List UInt8)), (addResponseCookie m x.q cookie).rcode = m.rcode := by
      intro m cookie
      cases cookie with
      | none => rfl
      | some cookie =>
        unfold addResponseCookie
        dsimp only
        split <;> rfl
    rcases clientEDNS_rcode s.hmac x.q ip s.cookieSecret with hle | hopt
    · left
      dsimp only [Incoming.refuseEDNS]
      rw [hrcode]
      exact hle
    · right
      dsimp only [Incoming.refuseEDNS]
      rw [if_pos hopt]
      exact isEdns0_addResponseCookie x.q _ (isEdns0_setEdns0 _ _ _)
  | answered ip past c ctx res => exact Or.inr ⟨ctx, res, by simp⟩
  | _ => exact Or.inl (Or.inl (hreply _ (by decide)))

end

/-- What holds of queries that are served. -/
structure Sound (s : Setup σ) (start : Handler σ) (w : Queries σ) : Prop where
  /-- the node has seen the queries that were let through and the changes, one after the other -/
  node : w.shared.node = nodeAfter s start w.shared.history
  /-- each of those queries has its grounds, and the node's answer -/
  grounded : ∀ i call p, w.threads[i]? = some (call, p) → Grounded s start i call w.shared.history
  /-- a query that is done was answered, counted and logged once, as what it has met asks for -/
  served : ∀ i x, w.threads[i]? = some (.query x, .done ()) → Served s x (Lib.Deed.own i w.shared.history)
  /-- what it was answered, if not by the resolver, can be packed -/
  packed : ∀ i x, w.threads[i]? = some (.query x, .done ()) → ∃ m, .wrote (sent s x m) ∈ Lib.Deed.own i w.shared.history ∧
    ((m.rcode ≤ 15 ∨ m.isEdns0.isSome = true) ∨ ∃ ctx res, .resolved ctx x.q (.ok res) ∈ Lib.Deed.own i w.shared.history)
  /-- the tokens are those that are held -/
  filled : ∀ channel c, w.shared.channels[channel]? = some c → Filled w.shared.history channel c
  /-- no call has to wait -/
  goesOn : ∀ i call op k x, w.threads[i]? = some (call, .call op k) → ∃ w', w.step s (.turn i x) = some w'
  /-- when all are done there are no tokens left -/
  drained : (∀ t ∈ w.threads, t.2 = .done ()) → ∀ c ∈ w.shared.channels, c.length = 0
  /-- those that were turned away are counted -/
  rejected : w.shared.rateLimit.rejectedTotal = rejections start.rateLimit.rejectedTotal w.shared.history

section

variable {s : Setup σ} {start h : Handler σ} {i : ℕ} {call : Call σ}

/-- An operation that a call may make is possible. -/
theorem serve_possible (hinv : Inv s start h) {op : Op σ} (hallows : Allows s call (Lib.Deed.own i h.history) op)
    (x : Outside σ) : ∃ r, serve s i op x h = some r := by
  cases op with
  | acquire channel =>
    have hlt : channel < h.channels.length := hinv.chosen i channel (Lib.Deed.mem_own.1 hallows.1)
    simp only [serve, List.getElem?_eq_getElem hlt]
    split <;> exact ⟨_, rfl⟩
  | release channel =>
    have hholds : Holding i channel h.history :=
      ⟨Lib.Deed.mem_own.1 hallows.1, fun hr => hallows.2 (Lib.Deed.mem_own.2 hr)⟩
    obtain ⟨c, hc, hpos⟩ := hinv.length_pos hholds
    simp only [serve, hc]
    exact ⟨_, if_pos hpos⟩
  | _ => exact ⟨_, rfl⟩

theorem Served.released {x : Incoming} {past : List (Did σ)} (hserved : Served s x past) {channel : ℕ}
    (ha : Did.acquired channel ∈ past) : Did.released channel ∈ past := by
  obtain ⟨before, r, rfl, hlife⟩ := hserved
  rcases List.mem_append.1 ha with ha | ha
  · unfold effects at ha
    split at ha <;> simp at ha
  · exact List.mem_append_right _ (hlife.released ha)

theorem Inv.new (s : Setup σ) (allowed : List Ip.Prefix) (maxConcurrent : ℕ) (rateLimit : RateLimitState) (node : Node σ) :
    Inv s (Handler.new allowed maxConcurrent rateLimit node) (Handler.new allowed maxConcurrent rateLimit node) where
  node := rfl
  rejected := rfl
  filled channel c hc := by
    change [(⟨maxConcurrent, 0⟩ : Channel)][channel]? = some c at hc
    rw [List.getElem?_singleton] at hc
    split at hc
    · cases hc
      exact ⟨[], List.nodup_nil, fun j => ⟨fun hj => (by cases hj), fun hj => (by cases hj.1)⟩, rfl, Nat.zero_le _⟩
    · cases hc
  chosen i channel hmem := by cases hmem
  acquired i channel hmem := by cases hmem
  nonempty := List.cons_ne_nil _ _

end

/-- **Queries that are served.** In every run of queries and of changes of the configuration, in any order of their steps. -/
theorem serving_sound (s : Setup σ) (allowed : List Ip.Prefix) (maxConcurrent : ℕ) (rateLimit : RateLimitState) (node : Node σ)
    (turns : List (Turn (Call σ) (Outside σ))) :
    ∀ w ∈ run (Queries.step s) { shared := Handler.new allowed maxConcurrent rateLimit node } turns,
      Sound s (Handler.new allowed maxConcurrent rateLimit node) w := by
  intro w hw
  set start := Handler.new allowed maxConcurrent rateLimit node
  have hfollows : w.Follows (protocol s) Handler.history (Inv s start) (fun h i call => Grounded s start i call h) (Ended s) :=
    Pool.run_follows (obeys_body s) (fun h i call habsent => Lib.Deed.grounded_of_absent habsent)
      (fun h i j call es hij hg => hg.append_others hij)
      (fun i call op x h a h' hinv hg hallows hact => serve_stepped hinv hg hallows hact)
      (Inv.new s allowed maxConcurrent rateLimit node) rfl hw
  have hinv : Inv s start w.shared := hfollows.shared
  have hserved : ∀ i x, w.threads[i]? = some (.query x, .done ()) → Served s x (Lib.Deed.own i w.shared.history) :=
    fun i x hi => (hfollows.threads i _ _ hi).2 x rfl
  refine ⟨hinv.node, fun i call p hi => (hfollows.threads i call p hi).1, hserved, fun i x hi => ?_, hinv.filled,
    fun i call op k x hi => ?_, fun hdone c hc => ?_, hinv.rejected⟩
  · obtain ⟨before, r, hown, hlife⟩ := hserved i x hi
    rw [hown]
    refine ⟨r.message, List.mem_append_left _ (by simp [effects]), hlife.packs.imp_right ?_⟩
    rintro ⟨ctx, res, hmem⟩
    exact ⟨ctx, res, List.mem_append_right _ hmem⟩
  · obtain ⟨⟨a, h'⟩, hserve⟩ := serve_possible hinv (hfollows.threads i call _ hi).2.1 x
    refine ⟨{ shared := h', threads := w.threads.set i (call, k a) }, ?_⟩
    simp only [Queries.step, Pool.step, hi, hserve]
    rfl
  · -- a token that is left would be held by a call that is done
    obtain ⟨channel, hlt, rfl⟩ := List.getElem_of_mem hc
    obtain ⟨holders, -, hmem, hlen, -⟩ := hinv.filled channel _ (List.getElem?_eq_getElem hlt)
    rw [← hlen, List.length_eq_zero_iff, List.eq_nil_iff_forall_not_mem]
    intro i hi
    obtain ⟨ha, hr⟩ := (hmem i).1 hi
    obtain ⟨⟨call, p⟩, hthread⟩ : ∃ t, w.threads[i]? = some t := ⟨_, List.getElem?_eq_getElem (hfollows.owned _ ha)⟩
    obtain ⟨hg, hend⟩ := hfollows.threads i call p hthread
    obtain ⟨before, -, x, ip, hcall, -⟩ := hg.of_mem ha
    obtain rfl : p = .done () := hdone _ (List.mem_of_getElem? hthread)
    exact hr (Lib.Deed.mem_own.1 ((hend x hcall).released (Lib.Deed.mem_own.2 ha)))

namespace Rush

def setup : Setup Unit where
  hmac := ⟨fun _ _ => List.replicate 32 0, fun _ _ => rfl⟩
  cookieSecret := []
  lib := .ideal []
  env := ⟨fun _ => 0, fun s => (7, s), fun _ _ _ s => (.error (.transport "i/o timeout"), s)⟩
  options := ⟨0, fun _ => ⟨fun _ s => (true, s), fun _ _ s => s⟩⟩
  truncate _ m := m

/-- A resolver that blocks every name. -/
def node : Node Unit := .new ⟨"NXDOMAIN", none, some { blocked := fun _ => true }, ⟨none, ⟨[], 0, none, none⟩⟩⟩ 16 ()

def home : List Ip.Prefix := [⟨[192, 0, 2, 0], 24, by decide, by decide⟩]

def limits : RateLimitState := { enabled := false, limiter := newRateLimiter 1 1 1 1 }

/-- A query of the client with this address. -/
def ask (client : BitVec 32) : Call Unit :=
  .query ⟨setQuestion 7 "ads.example.".toList typeA, true, "192.0.2.7".toList, some (.v4 client), 1⟩

def outside : Outside Unit := ⟨1, ⟨none, fun _ => none, 8⟩⟩

def turnsOf (i n : ℕ) : List (Turn (Call Unit) (Outside Unit)) := List.replicate n (.turn i outside)

/-- There is one slot and two clients want it; while one of them has it the slots are replaced. -/
def turns : List (Turn (Call Unit) (Outside Unit)) :=
  [.start (ask 0xc0000207), .start (ask 0xc0000208), .start (.updateConfig home 2)] ++
    turnsOf 0 4 ++ turnsOf 1 8 ++ turnsOf 2 1 ++ turnsOf 0 5

/-- The sources and codes that are counted, the last first. -/
def counted (w : Queries Unit) : List (String × ℕ) :=
  w.shared.history.filterMap (fun e => match e.what with | .observed _ source rcode => some (source, rcode) | _ => none)

end Rush

open Rush in
/-- One of them is answered, the other one is told that there is no slot, and no token is left. -/
theorem serving_sound_rush : ∃ w, run (Queries.step setup) { shared := Handler.new home 1 limits node } turns = some w ∧
    Sound setup (Handler.new home 1 limits node) w ∧ counted w = [("blocked", rcodeNameError), ("overload", rcodeServerFailure)] ∧
    w.shared.channels.map Channel.length = [0, 0] := by
  have hrun : (run (Queries.step setup) { shared := Handler.new home 1 limits node } turns).map
      (fun w => (counted w, w.shared.channels.map Channel.length)) =
      some ([("blocked", rcodeNameError), ("overload", rcodeServerFailure)], [0, 0]) := by decide +kernel
  obtain ⟨w, hw, heq⟩ := Option.map_eq_some_iff.1 hrun
  exact ⟨w, hw, serving_sound setup home 1 limits node turns w hw, congrArg Prod.fst heq, congrArg Prod.snd heq⟩

end Velora.Dns.Handling
