import ChatServer.FanOut
import ChatServer.Refinement

/-!
# What is heard was said

A client may miss a message: it comes late, or a `send` fails and the walk is
given up. But each message that it hears was said by a session registered
under the name on the line, once for each time it was said and in that order,
as long as nobody unlinks the node at which the broadcaster stands.
-/

namespace ChatServer

open CStr Interleave Prog

/-- The node at which the walk along the list stands. -/
def Broadcaster.cursor : Broadcaster → Option Nat
  | .sending _ _ cur _ | .stepping _ _ cur => some cur
  | _ => none

/-- Nobody removes the client at whose node the broadcaster stands. -/
def Footing (c : System) (l : Label Tid Act.Ret) : Prop :=
  ∀ tid fd, l = ⟨tid, .registryRemove fd, ChatStatus.ok⟩ → ∀ b cur, c.loc .broadcaster = .broadcaster b → b.cursor = some cur →
    ∀ n ∈ c.shared.registry.nodes, n.addr = cur → n.sockfd ≠ fd

/-- The lines of the events. -/
def eventLines (P : Platform) (msgs : List MqMessage) : List Bytes := msgs.filterMap (eventLine P)

/-- The event popped last is on its way; a descriptor that still waits for it has had none but earlier ones. -/
def Onward (P : Platform) (fd : Int) (tr : List (Label Tid Act.Ret)) (line : Bytes) (waiting : Prop) : Prop :=
  ∃ old msg, popped tr = old ++ [msg] ∧ eventLine P msg = some line ∧ (waiting → (aired fd tr).Sublist (eventLines P old))

/-- New nodes come in at the head: those behind the cursor are the ones that wait. -/
def Afoot (P : Platform) (fd : Int) (tr : List (Label Tid Act.Ret)) (s : Server) : Broadcaster → Prop
  | .first _ line => Onward P fd tr line True
  | .sending _ line cur p => ∃ pre k post fuel sent, keys s = pre ++ (cur, k) :: post ∧ p = castLoop k line fuel sent ∧
      sent < line.length ∧ line.length ≤ sent + fuel ∧ Onward P fd tr line (fd ∈ k :: post.map Prod.snd)
  | .stepping _ line cur => ∃ pre k post, keys s = pre ++ (cur, k) :: post ∧ Onward P fd tr line (fd ∈ post.map Prod.snd)
  | _ => True

/-- So far the descriptor was sent the lines of some of the events, in their order. -/
def InOrder (P : Platform) (fd : Int) (tr : List (Label Tid Act.Ret)) : Prop := (aired fd tr).Sublist (eventLines P (popped tr))

theorem eventLines_snoc (P : Platform) (old : List MqMessage) (msg : MqMessage) :
    eventLines P (old ++ [msg]) = eventLines P old ++ (eventLine P msg).toList := filterMap_snoc _ _ _

/-! ## One event -/

section
variable {P : Platform} {fd : Int} {tr tr' : List (Label Tid Act.Ret)} {line : Bytes} {waiting waiting' : Prop}

theorem Onward.mono (h : Onward P fd tr line waiting) (hw : waiting' → waiting) : Onward P fd tr line waiting' := by
  obtain ⟨old, msg, hp, hl, hold⟩ := h
  exact ⟨old, msg, hp, hl, fun hwait => hold (hw hwait)⟩

theorem Onward.traced (h : Onward P fd tr line waiting) (hpop : popped tr' = popped tr) (hair : aired fd tr' = aired fd tr) :
    Onward P fd tr' line waiting := by
  obtain ⟨old, msg, hp, hl, hold⟩ := h
  exact ⟨old, msg, hpop.trans hp, hl, fun hwait => hair ▸ hold hwait⟩

theorem InOrder.traced (h : InOrder P fd tr) (hpop : popped tr' = popped tr) (hair : aired fd tr' = aired fd tr) : InOrder P fd tr' := by
  rwa [InOrder, hpop, hair]

theorem InOrder.popped {msg : List MqMessage} (h : InOrder P fd tr) (hpop : popped tr' = popped tr ++ msg)
    (hair : aired fd tr' = aired fd tr) : InOrder P fd tr' := by
  rw [InOrder, hpop, hair, eventLines, List.filterMap_append]
  exact h.trans (List.sublist_append_left _ _)

/-- The descriptor has got the line that it was waiting for. -/
theorem Onward.sent (h : Onward P fd tr line waiting) (hw : waiting) (hpop : ChatServer.popped tr' = ChatServer.popped tr)
    (hair : aired fd tr' = aired fd tr ++ [line]) : InOrder P fd tr' := by
  obtain ⟨old, msg, hp, hl, hold⟩ := h
  rw [InOrder, hair, hpop, hp, eventLines_snoc, hl]
  exact (hold hw).append_right [line]

theorem Onward.nonempty (h : Onward P fd tr line waiting) : 0 < line.length := by
  obtain ⟨_, msg, -, hl, -⟩ := h
  exact eventLine_nonempty hl

/-- The walk enters the rest of the list. -/
theorem visit_afoot {s : Server} {room : Bytes} (pre : List ClientNode) {post : List ClientNode} (hnodes : s.registry.nodes = pre ++ post)
    (h : Onward P fd tr line (fd ∈ post.map ClientNode.sockfd)) : Afoot P fd tr s (Broadcaster.visit room line post.head?) := by
  cases post with
  | nil => trivial
  | cons node post =>
    have hkeys : keys s = pre.map (fun n => (n.addr, n.sockfd)) ++ (node.addr, node.sockfd) :: post.map fun n => (n.addr, n.sockfd) := by
      rw [keys, hnodes, List.map_append]
      rfl
    have hsnd : (post.map fun n => (n.addr, n.sockfd)).map Prod.snd = post.map ClientNode.sockfd := List.map_map
    show Afoot P fd tr s (Broadcaster.afterCallback room line node.addr (sendToClient room line node))
    by_cases hroom : cstr node.room = cstr room
    · obtain ⟨k, hact, -⟩ := castLoop_act node.sockfd h.nonempty h.nonempty
      rw [sendToClient_member_room hroom, hact]
      refine ⟨_, node.sockfd, _, line.length, 0, hkeys, hact.symm, h.nonempty, by omega, ?_⟩
      rw [hsnd]
      exact h
    · rw [sendToClient_other_room hroom]
      refine ⟨_, node.sockfd, _, hkeys, ?_⟩
      rw [hsnd]
      exact h.mono fun hwait => List.mem_cons_of_mem _ hwait

theorem onEvent_afoot {s : Server} {msg : MqMessage} (h : InOrder P fd tr) (hair : aired fd tr' = aired fd tr)
    (hpop : popped tr' = popped tr ++ [msg]) : Afoot P fd tr' s (Broadcaster.onEvent P msg) := by
  unfold Broadcaster.onEvent
  split
  · trivial
  split
  · trivial
  · rename_i line hl
    exact ⟨popped tr, msg, hpop, hl, fun _ => hair ▸ h⟩

end

/-! ## One step -/

section
variable {P : Platform} {fd : Int} {tr : List (Label Tid Act.Ret)} {c c' : System} {l : Label Tid Act.Ret}

/-- The broadcaster's own steps. -/
theorem Afoot.own (hi : Consistent c.shared) {b : Broadcaster} (h : Afoot P fd tr c.shared b) (ho : InOrder P fd tr)
    {a : Act} {k : a.Ret → Broadcaster} (hn : b.next P = some ⟨a, k⟩) {e : Env} {r : a.Ret} {s' : Server}
    (hx : exec P .broadcaster a e c.shared = some (r, s')) :
    Afoot P fd (tr ++ [⟨.broadcaster, a, r⟩]) s' (k r) ∧ InOrder P fd (tr ++ [⟨.broadcaster, a, r⟩]) := by
  cases b with
  | top =>
    cases hn
    change Bool at r
    refine ⟨?_, ho.traced (popped_quiet rfl tr) (written_quiet rfl tr)⟩
    cases r <;> trivial
  | popping =>
    cases hn
    have hair : aired fd (tr ++ [⟨.broadcaster, .mqPop, r⟩]) = aired fd tr := written_quiet rfl tr
    have hpop : popped (tr ++ [⟨.broadcaster, .mqPop, r⟩]) = popped tr ++ (popOf ⟨.broadcaster, .mqPop, r⟩).toList := popped_snoc _ _
    refine ⟨?_, ho.popped hpop hair⟩
    change ChatStatus × Option MqMessage at r
    obtain ⟨rc, msg⟩ := r
    cases rc with
    | ok =>
      cases msg with
      | none => trivial
      | some msg => exact onEvent_afoot ho hair hpop
    | _ => trivial
  | first room line =>
    cases hn
    cases hx
    have hair : aired fd (tr ++ [⟨.broadcaster, .foreachFirst, c.shared.registry.nodes.head?⟩]) = aired fd tr := written_quiet rfl tr
    have hpop : popped (tr ++ [⟨.broadcaster, .foreachFirst, c.shared.registry.nodes.head?⟩]) = popped tr := popped_quiet rfl tr
    exact ⟨visit_afoot [] rfl ((Onward.traced h hpop hair).mono fun _ => trivial), ho.traced hpop hair⟩
  | stepping room line cur =>
    cases hn
    cases hx
    obtain ⟨pre, key, post, hkeys, ht⟩ := h
    obtain ⟨pre', node, post', hnodes, rfl, hpost⟩ := keys_split hkeys
    have haddrs := hi.addrs
    rw [hnodes] at haddrs
    have hnext : (nodeAfter node.addr c.shared.registry.nodes).getD e.dangling = post'.head? := by
      rw [hnodes, nodeAfter_append (addrs_split haddrs).1]
      rfl
    rw [hnext]
    have hair : aired fd (tr ++ [⟨.broadcaster, .foreachNext node.addr, post'.head?⟩]) = aired fd tr := written_quiet rfl tr
    have hpop : popped (tr ++ [⟨.broadcaster, .foreachNext node.addr, post'.head?⟩]) = popped tr := popped_quiet rfl tr
    refine ⟨visit_afoot (pre' ++ [node]) (by rw [hnodes, List.append_assoc]; rfl) ?_, ho.traced hpop hair⟩
    rw [hpost]
    exact ht.traced hpop hair
  | sending room line cur p =>
    obtain ⟨pre, key, post, fuel, sent, hkeys, rfl, hs, hf, ht⟩ := h
    obtain ⟨k', hact, hk', hfail⟩ := castLoop_act key hs (show 0 < fuel by omega)
    rw [hact] at hn
    cases hn
    change Option Nat at r
    obtain rfl : c.shared = s' := (Prod.mk.inj (Option.some.inj hx)).2
    have hpop : popped (tr ++ [⟨.broadcaster, .send key line sent, r⟩]) = popped tr := popped_quiet rfl tr
    by_cases hgone : ∃ n, 0 < n ∧ r = some n
    · obtain ⟨n, hpos, rfl⟩ := hgone
      show Afoot P fd _ c.shared (Broadcaster.afterCallback room line cur (k' (some n))) ∧ _
      rw [hk' n hpos]
      by_cases hmore : sent + n < line.length
      · have hair : aired fd (tr ++ [⟨.broadcaster, .send key line sent, some n⟩]) = aired fd tr :=
          written_quiet (writtenOf_part fun m hm => Option.some.inj hm ▸ hmore) tr
        obtain ⟨k'', hact', -⟩ := castLoop_act key hmore (show 0 < fuel - 1 by omega)
        rw [hact']
        exact ⟨⟨pre, key, post, fuel - 1, sent + n, hkeys, hact'.symm, hmore, by omega, ht.traced hpop hair⟩, ho.traced hpop hair⟩
      · rw [castLoop_done (Nat.not_lt.mp hmore)]
        by_cases hkey : key = fd
        · subst hkey
          have hair : aired key (tr ++ [⟨.broadcaster, .send key line sent, some n⟩]) = aired key tr ++ [line] := by
            rw [aired, written_snoc, writtenOf_end (Nat.not_lt.mp hmore)]
            rfl
          have hfds := hi.nodeFds
          have hmap : c.shared.registry.nodes.map ClientNode.sockfd = (keys c.shared).map Prod.snd := by rw [keys, List.map_map]; rfl
          rw [hmap, hkeys, List.map_append, List.map_cons, List.nodup_append, List.nodup_cons] at hfds
          have hsent := ht.sent (List.mem_cons_self ..) hpop hair
          obtain ⟨old, msg, hp, hl, -⟩ := ht
          exact ⟨⟨pre, key, post, hkeys, old, msg, hpop.trans hp, hl, fun hwait => absurd hwait hfds.2.1.1⟩, hsent⟩
        · have hair : aired fd (tr ++ [⟨.broadcaster, .send key line sent, some n⟩]) = aired fd tr :=
            written_quiet (writtenOf_elsewhere hkey _) tr
          exact ⟨⟨pre, key, post, hkeys, (ht.traced hpop hair).mono fun hwait => List.mem_cons_of_mem _ hwait⟩, ho.traced hpop hair⟩
    · -- the line is not on its way to the end, and the walk is given up
      have hair : aired fd (tr ++ [⟨.broadcaster, .send key line sent, r⟩]) = aired fd tr := by
        refine written_quiet (writtenOf_part fun n hn => ?_) tr
        subst hn
        have hzero : ¬ 0 < n := fun hpos => hgone ⟨n, hpos, rfl⟩
        omega
      show Afoot P fd _ c.shared (Broadcaster.afterCallback room line cur (k' r)) ∧ _
      rw [hfail r fun n hn he => hgone ⟨n, hn, he⟩]
      exact ⟨trivial, ho.traced hpop hair⟩
  | done => cases hn

/-- Whatever another thread does to the list, the node of the cursor stays and nobody comes in behind it. -/
theorem exec_behind {tid : Tid} {e : Env} {s s' : Server} {a : Act} {r : a.Ret} (hx : exec P tid a e s = some (r, s'))
    {pre post : List (Nat × Int)} {cur : Nat} {k : Int} (h : keys s = pre ++ (cur, k) :: post)
    (hk : ∀ fd, (⟨a, r⟩ : (a : Act) × a.Ret) = ⟨.registryRemove fd, ChatStatus.ok⟩ → k ≠ fd) :
    ∃ pre' post', keys s' = pre' ++ (cur, k) :: post' ∧ (post'.map Prod.snd).Sublist (post.map Prod.snd) := by
  rcases exec_keys hx with ⟨new, hnew⟩ | ⟨fd, hrem⟩
  · exact ⟨new ++ pre, post, by rw [hnew, h, List.append_assoc], List.Sublist.refl _⟩
  · have hne := hk fd hrem
    cases hrem
    have hkeys : keys s' = (keys s).eraseP fun x => x.2 == fd := by
      have hnodes : s'.registry.nodes = unlink s.registry.nodes fd := by
        obtain ⟨-, rfl⟩ := Prod.mk.inj (Option.some.inj hx)
        exact registryRemove_nodes _ _
      rw [keys, hnodes, unlink, keys, List.eraseP_map]
      rfl
    rw [h] at hkeys
    let gone : Nat × Int → Bool := fun x => x.2 == fd
    by_cases hpre : ∃ x ∈ pre, gone x = true
    · obtain ⟨x, hmem, hgone⟩ := hpre
      have herase : (pre ++ (cur, k) :: post).eraseP gone = pre.eraseP gone ++ (cur, k) :: post := List.eraseP_append_left hgone _ hmem
      exact ⟨_, post, hkeys.trans herase, List.Sublist.refl _⟩
    · have herase : (pre ++ (cur, k) :: post).eraseP gone = pre ++ (cur, k) :: post.eraseP gone := by
        rw [List.eraseP_append_right _ fun x hmem hgone => hpre ⟨x, hmem, hgone⟩, List.eraseP_cons_of_neg (by simpa [gone] using hne)]
      exact ⟨pre, _, hkeys.trans herase, List.eraseP_sublist.map _⟩

theorem Footing.behind {b : Broadcaster} (hb : c.loc .broadcaster = .broadcaster b) (hfoot : Footing c l) {e : Env}
    (hx : exec P l.tid l.act e c.shared = some (l.ret, c'.shared)) {cur : Nat} (hcur : b.cursor = some cur) {pre post : List (Nat × Int)}
    {k : Int} (hkeys : keys c.shared = pre ++ (cur, k) :: post) :
    ∃ pre' post', keys c'.shared = pre' ++ (cur, k) :: post' ∧ (post'.map Prod.snd).Sublist (post.map Prod.snd) := by
  refine exec_behind hx hkeys fun fd' hrem => ?_
  obtain ⟨tid, a, r⟩ := l
  cases hrem
  have hmem : (cur, k) ∈ keys c.shared := by
    rw [hkeys]
    exact List.mem_append_right _ (List.mem_cons_self ..)
  obtain ⟨n, hn, hkey⟩ := List.mem_map.mp hmem
  cases hkey
  exact hfoot tid fd' rfl b _ hb hcur n hn rfl

theorem Afoot.other {b : Broadcaster} (hb : c.loc .broadcaster = .broadcaster b) (h : Afoot P fd tr c.shared b) (hfoot : Footing c l)
    {e : Env} (hx : exec P l.tid l.act e c.shared = some (l.ret, c'.shared)) (hpop : popped (tr ++ [l]) = popped tr)
    (hair : aired fd (tr ++ [l]) = aired fd tr) : Afoot P fd (tr ++ [l]) c'.shared b := by
  cases b with
  | first => exact Onward.traced h hpop hair
  | sending room line cur p =>
    obtain ⟨pre, k, post, fuel, sent, hkeys, hp, hs, hf, ht⟩ := h
    obtain ⟨pre', post', hkeys', hsub⟩ := hfoot.behind hb hx rfl hkeys
    exact ⟨pre', k, post', fuel, sent, hkeys', hp, hs, hf, (ht.traced hpop hair).mono fun hwait => (hsub.cons_cons k).subset hwait⟩
  | stepping room line cur =>
    obtain ⟨pre, k, post, hkeys, ht⟩ := h
    obtain ⟨pre', post', hkeys', hsub⟩ := hfoot.behind hb hx rfl hkeys
    exact ⟨pre', k, post', hkeys', (ht.traced hpop hair).mono fun hwait => hsub.subset hwait⟩
  | _ => trivial

/-- The descriptor is sent no event twice and none out of order, whoever holds it. -/
theorem run_inOrder {db : AuthDb} (hr : Run (fun c l c' => System.Step P Env.Terminated c l c' ∧ Footing c l) (System.init db) tr c)
    (fd : Int) : InOrder P fd tr := by
  suffices h : (∃ b, c.loc .broadcaster = .broadcaster b ∧ Afoot P fd tr c.shared b) ∧ InOrder P fd tr from h.2
  induction hr with
  | nil => exact ⟨⟨.top, rfl, trivial⟩, List.Sublist.refl []⟩
  | @snoc c c' tr l hr hs ih =>
    obtain ⟨⟨b, hb, hfoot⟩, ho⟩ := ih
    have hst : Staged True tr c := run_staged (fun _ he _ => he) (hr.mono fun _ _ _ h => h.1)
    have hpop := popOf_tid hst hs.1
    obtain ⟨hstep, hcalm⟩ := hs
    cases hstep with
    | @mk tid a k e r s' hn he hx =>
      by_cases htid : tid = .broadcaster
      · subst htid
        rw [hb] at hn
        obtain ⟨⟨a', k'⟩, hb', heq⟩ := Option.map_eq_some_iff.mp hn
        cases heq
        obtain ⟨hfoot', ho'⟩ := hfoot.own hst.shared.1 ho hb' hx
        refine ⟨⟨k' r, ?_, hfoot'⟩, ho'⟩
        show Function.update c.loc .broadcaster (Thread.broadcaster (k' r)) .broadcaster = _
        rw [Function.update_self]
      · have hp := popped_quiet (hpop htid) tr
        have hair : aired fd (tr ++ [⟨tid, a, r⟩]) = aired fd tr := written_quiet (writtenOf_tid htid) tr
        exact ⟨⟨b, (Function.update_of_ne (Ne.symm htid) ..).trans hb, hfoot.other hb hcalm hx hp hair⟩, ho.traced hp hair⟩

/-! ## Who sends a `BROADCAST` line -/

/-- Nobody but the broadcaster sends them. -/
theorem broadcasts_aired {ok : Env → Prop} {db : AuthDb} (hr : Run (System.Step P ok) (System.init db) tr c) (fd : Int) :
    (broadcasts fd tr).Sublist ((aired fd tr).filter fun line => decide (Phase.IsBroadcast line)) := by
  induction hr with
  | nil => exact List.Sublist.refl []
  | @snoc c c' tr l hr hs ih =>
    have hst : Staged False tr c := run_staged (fun _ _ => False.elim) hr
    rcases received_lines_snoc fd tr l with hlines | hlines
    · rw [broadcasts, hlines, List.filter_append, aired, written_snoc, List.filter_append]
      refine ih.append ?_
      by_cases htid : l.tid = .broadcaster
      · rw [htid]
      · cases hw : writtenOf l.tid fd l with
        | none => exact List.nil_sublist _
        | some line =>
          have hnot : ¬ Phase.IsBroadcast line := by
            obtain ⟨-, sent, hact⟩ := writtenOf_some hw
            have hp := (hst.step hs).1.phase
            rw [hact] at hp
            refine hp.resolve_left fun hcast => htid ?_
            have hsat := (hst.relies l.tid).sat
            rw [hcast] at hsat
            exact casting_tid hsat
          rw [Option.toList_some, List.filter_cons_of_neg (by simpa using hnot)]
          exact List.nil_sublist _
    · rw [broadcasts, hlines]
      exact List.nil_sublist _

end

/-! ## Who said it -/

/-- What a handler is about to tell the others has the name and the room of its session. -/
def Stage.Signed : Stage → Prop
  | ⟨p, .stored room username _ _⟩ => ∃ fd, p = .present fd username room
  | ⟨p, .ready msg⟩ => ∃ fd, p = .present fd (cstr msg.username) (cstr msg.room)
  | _ => True

/-- The event was pushed by a session that had proved the name, and was registered with it in the room. -/
def Spoken (P : Platform) (db : AuthDb) (tr : List (Label Tid Act.Ret)) (q : Tid × MqMessage) : Prop :=
  ∃ i tr₁ tr₂ c, q.1 = .handler i ∧ tr = tr₁ ++ ⟨.handler i, .mqPush q.2, ChatStatus.ok⟩ :: tr₂ ∧
    Run (System.Step P Env.Terminated) (System.init db) tr₁ c ∧ Proved tr₁ i (cstr q.2.username) ∧
    Registered c.shared i (cstr q.2.username) (cstr q.2.room)

theorem signed_of_open {p : Phase} {q : Errand} (h : q.Open) : Stage.Signed ⟨p, q⟩ := by
  cases q with
  | none | asked => trivial
  | _ => cases h

theorem chatEvent_signed {evt : MqMessage} (he : Stage.Ending evt) {username room content : Bytes} (h : Errand.Proper username room content)
    (ts : Int) : cstr (chatEvent evt username room content ts).username = username ∧ cstr (chatEvent evt username room content ts).room = room :=
  ⟨cstr_strncpy_ending (n := 31) evt.username_length he.username h.username.1 (Nat.le_pred_of_lt h.username.2),
    cstr_strncpy_ending (n := 31) evt.room_length he.room h.room.1 (Nat.le_pred_of_lt h.room.2)⟩

theorem next_signed {σ : Stage} {a : Act} {r : a.Ret} (hs : σ.Signed) (hq : σ.errand.Sound True) (hp : σ.permits True a)
    (ht : σ.tells True a r) : (σ.next a r).Signed := by
  obtain ⟨p, q⟩ := σ
  have herrand := hp.errand
  cases a with
  | recvLine => exact signed_of_open (Handler.heard_open r)
  | send fd buf n =>
    change Option Nat at r
    show Stage.Signed ⟨p, Errand.sent fd buf n r⟩
    unfold Errand.sent
    split
    · split <;> trivial
    · trivial
  | stackEvent =>
    change MqMessage at r
    cases q with
    | stored room u content ts =>
      obtain ⟨fd, rfl⟩ := hs
      obtain ⟨hname, hroom⟩ := chatEvent_signed (ht trivial) hq ts
      exact ⟨fd, by rw [hname, hroom]; rfl⟩
    | ready => exact absurd herrand (by rintro (h | ⟨_, _, _, _, h⟩) <;> cases h)
    | _ => trivial
  | roomHistoryAdd room u content ts => exact hp.phase.2.2
  | roomHistoryFormat =>
    change ChatStatus × Bytes at r
    show Stage.Signed ⟨p, q.quoted p.fd r⟩
    unfold Errand.quoted
    split
    · trivial
    · exact signed_of_open herrand
  | mqPush msg =>
    show Stage.Signed ⟨p.onPush msg.type, q.pushed⟩
    change if msg.type = .chat then q = .ready msg else q.Open at herrand
    split at herrand
    · subst herrand
      trivial
    · cases q with
      | none | asked => trivial
      | _ => cases herrand
  | _ => exact signed_of_open herrand

section
variable {P : Platform} {db : AuthDb} {tr : List (Label Tid Act.Ret)} {c c' : System} {l : Label Tid Act.Ret}

theorem stage_signed (hr : Run (System.Step P Env.Terminated) (System.init db) tr c) (tid : Tid) : (stageOf tr tid).Signed := by
  have hok : ∀ e, Env.Terminated e → True → e.Terminated := fun _ he _ => he
  induction hr with
  | nil => cases tid <;> trivial
  | @snoc c c' tr l hr hs ih =>
    have hc : Staged True tr c := run_staged hok hr
    by_cases htid : l.tid = tid
    · subst htid
      have h := next_signed ih (stage_sound hok hr l.tid) (hc.step hs).1 (hc.tells hok hs)
      rwa [← stageOf_own] at h
    · rw [stageOf_other htid]
      exact ih

theorem push_registered (hr : Run (System.Step P Env.Terminated) (System.init db) tr c) (hs : System.Step P Env.Terminated c l c')
    {msg : MqMessage} (hl : l.act = .mqPush msg) (hchat : msg.type = .chat) :
    ∃ i, l.tid = .handler i ∧ Proved tr i (cstr msg.username) ∧ Registered c.shared i (cstr msg.username) (cstr msg.room) := by
  have hst : Staged True tr c := run_staged (fun _ he _ => he) hr
  have herrand := (hst.step hs).1.errand
  rw [hl] at herrand
  have hready : (stageOf tr l.tid).errand = .ready msg := (if_pos hchat).mp herrand
  have hsigned := stage_signed hr l.tid
  have hrel := hst.relies l.tid
  generalize stageOf tr l.tid = σ at hready hsigned hrel
  obtain ⟨p, q⟩ := σ
  subst hready
  obtain ⟨fd, rfl⟩ := hsigned
  cases htid : l.tid with
  | handler i =>
    have hsat := hrel.sat
    rw [htid] at hsat
    obtain ⟨hconn, hverified, n, hn, hfd, hname⟩ := hsat
    obtain ⟨hown, -⟩ := hst.shared.1.owned n hn
    have howner := congrArg Conn.id (hst.shared.1.conn_fd hown hconn hfd)
    exact ⟨i, rfl, (verified_iff hr).mp hverified, n, hn, howner, ((hst.shared.2 trivial).exact n hn).trans hname,
      (hrel.seat fd _ rfl).2 n hn hfd⟩
  | _ => rw [htid] at hrel; cases hrel.sat

theorem spoken_of_pushed (hr : Run (System.Step P Env.Terminated) (System.init db) tr c) {q : Tid × MqMessage} (hq : q ∈ pushed tr)
    (hchat : q.2.type = .chat) : Spoken P db tr q := by
  obtain ⟨l, hl, hpush⟩ := List.mem_filterMap.mp hq
  obtain ⟨tr₁, tr₂, rfl⟩ := List.append_of_mem hl
  obtain ⟨c₁, h₁, h₂⟩ := hr.split
  obtain ⟨c', hs, -⟩ := h₂.uncons
  obtain ⟨tid, a, r⟩ := l
  cases a with
  | mqPush msg =>
    change ChatStatus at r
    obtain ⟨hrc, he⟩ := Option.ite_none_right_eq_some.mp hpush
    cases hrc
    cases he
    obtain ⟨i, htid, hproved, hreg⟩ := push_registered h₁ hs rfl hchat
    obtain rfl : tid = .handler i := htid
    exact ⟨i, tr₁, tr₂, c₁, rfl, rfl, h₁, hproved, hreg⟩
  | _ => cases hpush

theorem eventLines_broadcasts (P : Platform) : ∀ msgs : List MqMessage,
    ((eventLines P msgs).filter fun line => decide (Phase.IsBroadcast line)) =
      (msgs.filter fun msg => msg.type == .chat).map (broadcastLine P)
  | [] => rfl
  | msg :: msgs => by
    have ih := eventLines_broadcasts P msgs
    unfold eventLines at ih ⊢
    rw [List.filterMap_cons, List.filter_cons]
    by_cases hchat : msg.type = .chat
    · have hb := broadcastLine_isBroadcast P msg
      rw [eventLine_chat hchat, if_pos (by simpa using hchat)]
      dsimp only
      rw [List.filter_cons_of_pos (by simpa using hb), ih]
      rfl
    · rw [if_neg (by simpa using hchat), ← ih]
      cases hl : eventLine P msg with
      | none => rfl
      | some line =>
        dsimp only
        rw [List.filter_cons_of_neg (by simpa using fun h => hchat ((eventLine_isBroadcast hl).mp h))]

/-- The `BROADCAST` lines on a connection are those of some of the messages pushed, in their order. -/
theorem broadcasts_pushed (hr : Run (fun c l c' => System.Step P Env.Terminated c l c' ∧ Footing c l) (System.init db) tr c) (fd : Int) :
    ∃ said : List (Tid × MqMessage), said.Sublist (pushed tr) ∧ broadcasts fd tr = said.map (fun q => broadcastLine P q.2) ∧
      ∀ q ∈ said, q.2.type = .chat := by
  have hplain := hr.mono fun _ _ _ h => h.1
  have hpopped : (popped tr).Sublist ((pushed tr).map Prod.snd) := by
    rw [pushed_eq hplain]
    exact List.sublist_append_left _ _
  have hchats : (broadcasts fd tr).Sublist (((pushed tr).filter fun q => q.2.type == .chat).map fun q => broadcastLine P q.2) := by
    refine (broadcasts_aired hplain fd).trans (((run_inOrder hr fd).filter _).trans ?_)
    rw [eventLines_broadcasts]
    refine ((hpopped.filter _).map _).trans ?_
    rw [List.filter_map, List.map_map]
    exact List.Sublist.refl _
  obtain ⟨said, hsaid, hlines⟩ := List.sublist_map_iff.mp hchats
  refine ⟨said, hsaid.trans List.filter_sublist, hlines, fun q hq => ?_⟩
  simpa using (List.mem_filter.mp (hsaid.subset hq)).2

theorem chatBy_asked (hr : Run (System.Step P Env.Terminated) (System.init db) tr c) {said : List (Tid × MqMessage)}
    (h : said.Sublist (pushed tr)) (i : Nat) : (said.filterMap (chatBy i)).Sublist (asked i tr) :=
  (h.filterMap _).trans ((List.sublist_append_left _ _).trans (chats_asked hr i))

/-- **What is heard was said**: the `BROADCAST` lines that come to their end on a
connection are those of some of the messages pushed, each once and in the order
of the pushes. Each was pushed by a session that had proved the name on the line
and was registered with it in the room on the line, and those of one sender are
texts that it has asked for, in its order. -/
theorem heard_was_said (hr : Run (fun c l c' => System.Step P Env.Terminated c l c' ∧ Footing c l) (System.init db) tr c) (fd : Int) :
    ∃ said : List (Tid × MqMessage), said.Sublist (pushed tr) ∧ broadcasts fd tr = said.map (fun q => broadcastLine P q.2) ∧
      (∀ q ∈ said, q.2.type = .chat ∧ Spoken P db tr q) ∧ ∀ i, (said.filterMap (chatBy i)).Sublist (asked i tr) := by
  have hplain := hr.mono fun _ _ _ h => h.1
  obtain ⟨said, hsaid, hlines, hchat⟩ := broadcasts_pushed hr fd
  exact ⟨said, hsaid, hlines, fun q hq => ⟨hchat q hq, spoken_of_pushed hplain (hsaid.subset hq) (hchat q hq)⟩, chatBy_asked hplain hsaid⟩

end

def stays (_ : System) (l : Label Tid Act.Ret) (_ : System) : Bool := !removes l.act

theorem footing_of_stays {c c' : System} {l : Label Tid Act.Ret} (h : stays c l c' = true) : Footing c l := by
  rintro tid fd rfl
  cases h

/-- `bob` hears what `alice` says, and she has said it. -/
theorem heard_was_said_bob : ∃ (tr : List (Label Tid Act.Ret)) (c : System) (said : List (Tid × MqMessage)),
    Run (System.Step passPlatform Env.Terminated) (System.init passDb) tr c ∧
    broadcasts 6 tr = [lit "BROADCAST alice 1970-01-01T00:00:00 lobby hi\n"] ∧
    broadcasts 6 tr = said.map (fun q => broadcastLine passPlatform q.2) ∧ ∀ q ∈ said, Spoken passPlatform passDb tr q := by
  have hsunny : ∀ q ∈ bothIn ++ saysHi, q.2.Terminated := fun q hq => (List.mem_append.mp hq).elim (sunny_bothIn q) (sunny_saysHi q)
  have hguard : (guarded (Thread.next passPlatform) (exec passPlatform) stays (System.init passDb) (bothIn ++ saysHi)).any
      (fun q => broadcasts 6 q.1 == [lit "BROADCAST alice 1970-01-01T00:00:00 lobby hi\n"]) = true := by decide +kernel
  obtain ⟨tr, c, hr, hp⟩ := System.exists_guarded passPlatform Env.Terminated (System.init passDb) (bothIn ++ saysHi) hsunny hguard
  have hrun := hr.mono fun _ _ _ h => And.intro h.1 (footing_of_stays h.2)
  obtain ⟨said, -, hlines, hspoken, -⟩ := heard_was_said hrun 6
  exact ⟨tr, c, said, hr.mono fun _ _ _ h => h.1, beq_iff_eq.mp hp, hlines, fun q hq => (hspoken q hq).2⟩

end ChatServer
