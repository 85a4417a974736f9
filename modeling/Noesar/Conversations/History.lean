import Mathlib
import Noesar.Conversations.Changes

namespace Noesar.Conversations

open Lib Lib.Utf16 Lib.Json Canonical Context Relation
open Author (text)

def IsParent (s : State) (conversationId : Id) (parent message : Message) : Prop :=
  parent ∈ s.messages ∧ parent.conversationId = conversationId ∧
    message ∈ s.messages ∧ message.conversationId = conversationId ∧ parent.id ∈ message.parents

/-- A message that is met from the head of a branch through parents, all in the same conversation. -/
def InHistory (s : State) (conversationId : Id) (branch : Branch) (message : Message) : Prop :=
  ∃ head ∈ s.messages, head.conversationId = conversationId ∧ branch.headId = some head.id ∧
    ReflTransGen (IsParent s conversationId) message head

/-- The messages of a branch: its history, each message once and behind all of its ancestors. -/
structure ReadsAsHistory (s : State) (conversationId : Id) (branch : Branch) (result : List Message) : Prop where
  nodup : result.Nodup
  exactly : ∀ message, message ∈ result ↔ InHistory s conversationId branch message ∧ branch.id ∉ message.excludedInBranchIds
  ordered : ∀ (i j : ℕ) ancestor message, result[i]? = some ancestor → result[j]? = some message →
    TransGen (IsParent s conversationId) ancestor message → i < j

def Message.unmarked (message : Message) : Message := { message with excludedInBranchIds := [] }

section Reading

variable {s : State} {conversationId branchId : Id}

def parentsOf (s : State) (conversationId : Id) (id : Id) : Option (List Id) :=
  (messageOf s conversationId id).map Message.parents

def readOf (s : State) (conversationId branchId : Id) (visited : List Id) : List Message :=
  (visited.filterMap (messageOf s conversationId)).filter fun message ↦ branchId ∉ message.excludedInBranchIds

variable {message : Message} {visited : List Id} {branch : Branch}

theorem messageOf_eq_some (h : WellFormed s) {id : Id} : messageOf s conversationId id = some message ↔
    message ∈ s.messages ∧ message.conversationId = conversationId ∧ message.id = id := by
  constructor
  · intro hfind
    have hmem := List.mem_filter.mp (List.mem_of_find?_eq_some hfind)
    exact ⟨hmem.1, by simpa using hmem.2, by simpa using List.find?_some hfind⟩
  · intro ⟨hmem, hconversation, hid⟩
    have hmine : message ∈ s.messages.filter fun item ↦ item.conversationId = conversationId :=
      List.mem_filter.mpr ⟨hmem, decide_eq_true hconversation⟩
    have hfound : findById Message.id _ message.id "" = .ok message :=
      findById_of_mem (h.messageIds.sublist (List.filter_sublist.map _)) hmine
    rw [findById, demand_ok, hid] at hfound
    exact hfound

theorem visit_eq (depth : ℕ) (visited : List Id) (id : Id) :
    visit (messageOf s conversationId) branchId depth ⟨visited, readOf s conversationId branchId visited⟩ id =
      (Postorder.visit (parentsOf s conversationId) depth visited id).map fun visited' ↦
        ⟨visited', readOf s conversationId branchId visited'⟩ := by
  induction depth generalizing visited id with
  | zero => rfl
  | succ depth ih =>
    have hfold (parents : List Id) : ∀ visited, parents.foldlM (visit (messageOf s conversationId) branchId depth)
        ⟨visited, readOf s conversationId branchId visited⟩ =
        (parents.foldlM (Postorder.visit (parentsOf s conversationId) depth) visited).map fun visited' ↦
          (⟨visited', readOf s conversationId branchId visited'⟩ : Walk) := by
      induction parents with
      | nil => exact fun visited ↦ rfl
      | cons parent parents ihparents =>
        intro visited
        rw [List.foldlM_cons, List.foldlM_cons, ih]
        cases Postorder.visit (parentsOf s conversationId) depth visited parent with
        | none => rfl
        | some visited' => exact ihparents visited'
    rw [visit, Postorder.visit]
    split
    · rfl
    · cases hnode : messageOf s conversationId id with
      | none => simp [parentsOf, hnode]
      | some =>
        simp only [parentsOf, hnode, Option.map_some]
        rw [hfold, Option.map_map, Option.map_map]
        congr 1
        funext visited'
        simp only [Function.comp_apply, readOf, List.filterMap_append, List.filter_append, List.filterMap_cons, hnode,
          List.filterMap_nil, List.filter_cons, List.filter_nil]
        split <;> simp_all

section

variable (h : WellFormed s)

include h

theorem IsParent.id_lt {parent : Message} (hparent : IsParent s conversationId parent message) : parent.id < message.id
    :=
  h.earlier message hparent.2.2.1 parent.id hparent.2.2.2.2

theorem ancestor_id_lt {ancestor : Message} (hancestor : TransGen (IsParent s conversationId) ancestor message) :
    ancestor.id < message.id := by
  induction hancestor with
  | single hparent => exact hparent.id_lt h
  | tail _ hparent ih => exact ih.trans (hparent.id_lt h)

theorem precedes_iff {j k : Id} : Postorder.Precedes (parentsOf s conversationId) j k ↔ ∃ parent message, IsParent s
    conversationId parent message ∧ parent.id = j ∧ message.id = k := by
  constructor
  · intro ⟨hj, parents, hk, hmem⟩
    rw [parentsOf, Option.isSome_map] at hj
    obtain ⟨parent, hparent⟩ := Option.isSome_iff_exists.mp hj
    obtain ⟨message, hmessage, rfl⟩ := Option.map_eq_some_iff.mp hk
    obtain ⟨hp, hpc, rfl⟩ := (messageOf_eq_some h).mp hparent
    obtain ⟨hm, hmc, rfl⟩ := (messageOf_eq_some h).mp hmessage
    exact ⟨parent, message, ⟨hp, hpc, hm, hmc, hmem⟩, rfl, rfl⟩
  · intro ⟨parent, message, ⟨hp, hpc, hm, hmc, hmem⟩, hj, hk⟩
    subst hj hk
    refine ⟨?_, message.parents, ?_, hmem⟩
    · rw [parentsOf, (messageOf_eq_some h).mpr ⟨hp, hpc, rfl⟩]
      rfl
    · rw [parentsOf, (messageOf_eq_some h).mpr ⟨hm, hmc, rfl⟩]
      rfl

theorem ranks_id : Postorder.Ranks (parentsOf s conversationId) id := by
  intro j k hprecedes
  obtain ⟨parent, message, hparent, rfl, rfl⟩ := (precedes_iff h).mp hprecedes
  exact hparent.id_lt h

theorem eq_of_id {a b : Message} (ha : a ∈ s.messages) (hb : b ∈ s.messages) (hid : a.id = b.id) : a = b :=
  List.inj_on_of_nodup_map h.messageIds ha hb hid

theorem reached_iff_ancestor {head : Message} (hm : message ∈ s.messages) (hmc : message.conversationId =
    conversationId) (hh : head ∈ s.messages) : Postorder.Reached (parentsOf s conversationId) message.id head.id ↔
    ReflTransGen (IsParent s conversationId) message head := by
  constructor
  · intro ⟨_, hchain⟩
    generalize hk : head.id = k at hchain
    induction hchain generalizing head with
    | refl => rw [eq_of_id h hm hh hk.symm]
    | tail _ hlast ih =>
      obtain ⟨parent, child, hparent, hparentId, hchild⟩ := (precedes_iff h).mp hlast
      obtain rfl := eq_of_id h hparent.2.2.1 hh (hchild.trans hk.symm)
      exact (ih hparent.1 hparentId).tail hparent
  · intro hchain
    refine ⟨?_, ?_⟩
    · rw [parentsOf, (messageOf_eq_some h).mpr ⟨hm, hmc, rfl⟩]
      rfl
    · exact hchain.lift Message.id fun parent child hparent ↦ (precedes_iff h).mpr ⟨parent, child, hparent, rfl, rfl⟩

theorem mem_readOf : message ∈ readOf s conversationId branchId visited ↔ message ∈ s.messages ∧ message.conversationId
    = conversationId ∧ message.id ∈ visited ∧ branchId ∉ message.excludedInBranchIds := by
  rw [readOf, List.mem_filter, List.mem_filterMap, decide_eq_true_eq]
  constructor
  · intro ⟨⟨id, hid, hmessage⟩, hshown⟩
    obtain ⟨hmem, hconversation, rfl⟩ := (messageOf_eq_some h).mp hmessage
    exact ⟨hmem, hconversation, hid, hshown⟩
  · intro ⟨hmem, hconversation, hid, hshown⟩
    exact ⟨⟨message.id, hid, (messageOf_eq_some h).mpr ⟨hmem, hconversation, rfl⟩⟩, hshown⟩

theorem readsAsHistory_of_visited (hordered : Postorder.Ordered (parentsOf s conversationId) visited) (hmem : ∀ id, id ∈
    visited ↔ ∃ head ∈ branch.headId, Postorder.Reached (parentsOf s conversationId) id head) : ReadsAsHistory s
    conversationId branch (readOf s conversationId branch.id visited) := by
  constructor
  case nodup =>
    refine (List.Nodup.filterMap ?_ hordered.nodup).filter _
    intro i j message hi hj
    rw [Option.mem_def, messageOf_eq_some h] at hi hj
    exact hi.2.2.symm.trans hj.2.2
  case exactly =>
    intro message
    rw [mem_readOf h]
    constructor
    · intro ⟨hm, hmc, hid, hshown⟩
      obtain ⟨headId, hhead, hreached⟩ := (hmem _).mp hid
      refine ⟨?_, hshown⟩
      have hthere : (messageOf s conversationId headId).isSome := by
        by_contra hnone
        rw [Option.not_isSome_iff_eq_none] at hnone
        exact Postorder.not_reached (by rw [parentsOf, hnone, Option.map_none]) hreached
      obtain ⟨head, hfound⟩ := Option.isSome_iff_exists.mp hthere
      obtain ⟨hh, hhc, rfl⟩ := (messageOf_eq_some h).mp hfound
      exact ⟨head, hh, hhc, hhead, (reached_iff_ancestor h hm hmc hh).mp hreached⟩
    · intro ⟨⟨head, hh, hhc, hhead, hchain⟩, hshown⟩
      have hm : message ∈ s.messages ∧ message.conversationId = conversationId := by
        rcases ReflTransGen.cases_head hchain with rfl | ⟨child, hparent, _⟩
        · exact ⟨hh, hhc⟩
        · exact ⟨hparent.1, hparent.2.1⟩
      exact ⟨hm.1, hm.2, (hmem _).mpr ⟨head.id, hhead, (reached_iff_ancestor h hm.1 hm.2 hh).mpr hchain⟩, hshown⟩
  case ordered =>
    intro i j ancestor message hi hj hancestor
    have hmessage := (mem_readOf h).mp (List.mem_of_getElem? hj)
    have hanc := (mem_readOf h).mp (List.mem_of_getElem? hi)
    obtain ⟨front, back, hsplit⟩ := List.append_of_mem hmessage.2.2.1
    have hfront : ancestor.id ∈ front := by
      have hreached := (reached_iff_ancestor h hanc.1 hanc.2.1 hmessage.1).mpr hancestor.to_reflTransGen
      rcases hordered.mem_of_reached hsplit hreached with heq | hfront
      · exact absurd heq (ancestor_id_lt h hancestor).ne
      · exact hfront
    have hnodup := hordered.nodup
    rw [hsplit, List.nodup_append] at hnodup
    have happend : readOf s conversationId branch.id visited =
        readOf s conversationId branch.id front ++ readOf s conversationId branch.id (message.id :: back) := by
      rw [hsplit, readOf, List.filterMap_append, List.filter_append]
      rfl
    rw [happend] at hi hj
    have hless : i < (readOf s conversationId branch.id front).length := by
      by_contra hge
      rw [List.getElem?_append_right (not_lt.mp hge)] at hi
      have hlater := ((mem_readOf h).mp (List.mem_of_getElem? hi)).2.2.1
      exact hnodup.2.2 _ hfront _ hlater rfl
    have hmore : (readOf s conversationId branch.id front).length ≤ j := by
      by_contra hlt
      rw [List.getElem?_append_left (not_le.mp hlt)] at hj
      have hearlier := ((mem_readOf h).mp (List.mem_of_getElem? hj)).2.2.1
      exact hnodup.2.2 _ hearlier _ List.mem_cons_self rfl
    exact hless.trans_le hmore

end

/-- The messages of a branch are those that have been visited from its head. -/
structure VisitedFrom (s : State) (conversationId : Id) (branch : Branch) (visited : List Id) : Prop where
  walk : match branch.headId with
    | none => visited = []
    | some headId => Postorder.visit (parentsOf s conversationId) (s.fresh + 2) [] headId = some visited
  ordered : Postorder.Ordered (parentsOf s conversationId) visited
  mem : ∀ id, id ∈ visited ↔ ∃ head ∈ branch.headId, Postorder.Reached (parentsOf s conversationId) id head

theorem visitedFrom (h : WellFormed s) (hbranch : branch ∈ s.branches) (conversationId : Id) :
    ∃ visited, VisitedFrom s conversationId branch visited := by
  cases hhead : branch.headId with
  | none => exact ⟨[], by rw [hhead], .nil, by simp [hhead]⟩
  | some headId =>
    have hsuffices : Postorder.Suffices (parentsOf s conversationId) id (s.fresh + 2) headId := by
      refine ⟨Nat.succ_pos _, fun _ ↦ ?_⟩
      exact Nat.add_le_add_right (h.heads branch hbranch headId hhead).le 2
    obtain ⟨visited, hwalk, hordered, hmem⟩ := Postorder.visit_visited (ranks_id h) hsuffices .nil
    exact ⟨visited, by rw [hhead]; exact hwalk, hordered, by simpa [hhead] using hmem⟩

theorem branchMessages_of_visited (h : WellFormed s) {conversation : Conversation}
    (hconversation : conversation ∈ s.conversations) (hbranch : branch ∈ s.branches)
    (hvisited : VisitedFrom s conversation.id branch visited) :
    branchMessages s conversation.id branch.id = .ok (some (readOf s conversation.id branch.id visited)) := by
  have hfound : findConversation s conversation.id = .ok conversation := findById_of_mem h.conversationIds hconversation
  have hbranchFound : findBranch s branch.id "Branch" = .ok branch := findById_of_mem h.branchIds hbranch
  have hwalk := hvisited.walk
  rw [branchMessages, hfound]
  change (findBranch s branch.id "Branch" >>= _) = _
  rw [hbranchFound]
  change (match branch.headId with
    | none => _
    | some headId => _) = _
  split at hwalk
  · rw [hwalk]
    rfl
  · rename_i headId _
    have hvisit : visit (messageOf s conversation.id) branch.id (s.fresh + 2) ⟨[], readOf s conversation.id branch.id []⟩ headId = _ :=
      visit_eq (s.fresh + 2) [] headId
    rw [hwalk] at hvisit
    exact congrArg (fun walk ↦ Except.ok (walk.map Walk.ordered)) hvisit

end Reading

section Excluding

variable {s s' : State} {conversationId : Id}

variable {branchId : Id}

theorem mem_setExcluded {other : Id} (h : other ≠ branchId) {excluded : Bool} {ids : List Id} :
    other ∈ setExcluded branchId excluded ids ↔ other ∈ ids := by
  unfold setExcluded
  split
  · split
    · rfl
    · simp [h]
  · simp [h]

/-- A message whose mark for one branch is changed keeps all else. -/
structure Remarked (branchId : Id) (message message' : Message) : Prop where
  conversationId : message'.conversationId = message.conversationId
  id : message'.id = message.id
  parents : message'.parents = message.parents
  unmarked : message'.unmarked = message.unmarked
  others : ∀ other, other ≠ branchId → (other ∈ message'.excludedInBranchIds ↔ other ∈ message.excludedInBranchIds)

theorem Remarked.refl (branchId : Id) (message : Message) : Remarked branchId message message :=
  ⟨rfl, rfl, rfl, rfl, fun _ _ ↦ Iff.rfl⟩

theorem readOf_remarked {other : Id} (hother : other ≠ branchId) {mark : Message → Message}
    (hmark : ∀ message ∈ s.messages, Remarked branchId message (mark message))
    (hmessages : s'.messages = s.messages.map mark) (visited : List Id) :
    parentsOf s' conversationId = parentsOf s conversationId ∧
      readOf s' conversationId other visited = (readOf s conversationId other visited).map mark := by
  have hmessageOf (id : Id) : messageOf s' conversationId id = (messageOf s conversationId id).map mark := by
    rw [messageOf, messageOf, hmessages, List.filter_map, List.find?_map]
    have hsame : s.messages.filter ((fun item ↦ decide (item.conversationId = conversationId)) ∘ mark) =
        s.messages.filter fun item ↦ item.conversationId = conversationId := by
      apply List.filter_congr
      intro message hmessage
      rw [Function.comp_apply, (hmark message hmessage).conversationId]
    rw [hsame]
    congr 1
    apply List.find?_congr
    intro message hmessage
    rw [Function.comp_apply, (hmark message (List.mem_filter.mp hmessage).1).id]
  have hmem {id : Id} {message : Message} (hfound : messageOf s conversationId id = some message) : message ∈ s.messages :=
    (List.mem_filter.mp (List.mem_of_find?_eq_some hfound)).1
  constructor
  · funext id
    rw [parentsOf, parentsOf, hmessageOf]
    cases hfound : messageOf s conversationId id with
    | none => rfl
    | some message => exact congrArg some (hmark message (hmem hfound)).parents
  · have hvisited : visited.filterMap (messageOf s' conversationId) = (visited.filterMap (messageOf s conversationId)).map mark := by
      rw [List.map_filterMap]
      apply List.filterMap_congr
      intro id _
      exact hmessageOf id
    rw [readOf, readOf, hvisited, List.filter_map]
    congr 1
    apply List.filter_congr
    intro message hmessage
    obtain ⟨id, _, hfound⟩ := List.mem_filterMap.mp hmessage
    rw [Function.comp_apply, decide_eq_decide, (hmark message (hmem hfound)).others other hother]

theorem branchMessages_excluded (h : WellFormed s) {conversation : Conversation}
    (hconversation : conversation ∈ s.conversations) {branch : Branch} (hbranch : branch ∈ s.branches)
    {messageId : Id} {excluded : Bool} (hother : branch.id ≠ branchId) {message : Message}
    (hset : setMessageExcluded messageId branchId excluded s = .ok (message, s')) {visited : List Id}
    (hvisited : VisitedFrom s conversation.id branch visited) :
    ∃ result', branchMessages s' conversation.id branch.id = .ok (some result') ∧
      result'.map Message.unmarked = (readOf s conversation.id branch.id visited).map Message.unmarked := by
  have hchanges := setMessageExcluded_changes hset
  obtain ⟨found, hfound, hset⟩ := bind_ok.mp hset
  obtain ⟨_, _, hset⟩ := bind_ok.mp hset
  obtain ⟨_, hs'⟩ := Prod.mk.inj (Except.ok.inj hset)
  obtain ⟨hmem, rfl⟩ := findById_ok hfound
  have hmark : ∀ item ∈ s.messages, Remarked branchId item (if item.id = found.id then
      { found with excludedInBranchIds := setExcluded branchId excluded found.excludedInBranchIds } else item) := by
    intro item hitem
    split
    · rename_i hid
      obtain rfl := eq_of_id h hitem hmem hid
      exact ⟨rfl, rfl, rfl, rfl, fun _ hne ↦ mem_setExcluded hne⟩
    · exact .refl _ _
  have hmessages : s'.messages = s.messages.map _ := congrArg State.messages hs'.symm
  have hremarked : parentsOf s' conversation.id = parentsOf s conversation.id ∧ _ := readOf_remarked hother hmark hmessages visited
  obtain ⟨hparents, hread⟩ := hremarked
  have hvisited' : VisitedFrom s' conversation.id branch visited := by
    refine ⟨?_, hparents ▸ hvisited.ordered, hparents ▸ hvisited.mem⟩
    rw [hparents, ← hs']
    exact hvisited.walk
  refine ⟨_, branchMessages_of_visited (h.changes hchanges) ?_ ?_ hvisited', ?_⟩
  · rw [← hs']
    exact hconversation
  · rw [← hs']
    exact hbranch
  · rw [hread, List.map_map]
    apply List.map_congr_left
    intro item hitem
    exact (hmark item ((mem_readOf h).mp hitem).1).unmarked

end Excluding

section Adding

variable {s s' : State} {conversationId : Id}

variable {message : Message}

theorem messageOf_snoc (h : WellFormed s) (hid : message.id = s.fresh)
    (hconversation : message.conversationId = conversationId) (hmessages : s'.messages = s.messages ++ [message]) :
    messageOf s' conversationId s.fresh = some message ∧
      ∀ id, id ≠ s.fresh → messageOf s' conversationId id = messageOf s conversationId id := by
  have happend (id : Id) : messageOf s' conversationId id = (messageOf s conversationId id).or
      (if message.id = id then some message else none) := by
    rw [messageOf, messageOf, hmessages, List.filter_append, List.find?_append]
    simp [hconversation, List.find?_singleton]
  constructor
  · rw [happend, if_pos hid]
    have hnone : messageOf s conversationId s.fresh = none := by
      by_contra hsome
      obtain ⟨other, hother⟩ := Option.ne_none_iff_exists'.mp hsome
      obtain ⟨hmem, _, hsame⟩ := (messageOf_eq_some h).mp hother
      exact absurd hsame (h.messagesDrawn other hmem).ne
    rw [hnone]
    rfl
  · intro id hne
    rw [happend, if_neg (hid ▸ hne.symm), Option.or_none]

theorem walk_snoc (h : WellFormed s) {branch : Branch} (hid : message.id = s.fresh)
    (hhead : ∀ head ∈ branch.headId, head < s.fresh) (hparents : message.parents = branch.headId.toList)
    (hconversation : message.conversationId = conversationId) (hmessages : s'.messages = s.messages ++ [message])
    {visited : List Id} (hvisited : VisitedFrom s conversationId branch visited) :
    Postorder.visit (parentsOf s' conversationId) (s.fresh + 3) [] s.fresh = some (visited ++ [s.fresh]) := by
  obtain ⟨hnew, hsame⟩ := messageOf_snoc h hid hconversation hmessages
  have hparentsNew : parentsOf s' conversationId s.fresh = some branch.headId.toList := by
    rw [parentsOf, hnew, Option.map_some, hparents]
  have hparentsSame : ∀ id, id ≠ s.fresh → parentsOf s' conversationId id = parentsOf s conversationId id := by
    intro id hne
    rw [parentsOf, parentsOf, hsame id hne]
  have hnever : ∀ id parents, parentsOf s conversationId id = some parents → s.fresh ∉ parents := by
    intro id parents hid hmem
    obtain ⟨other, hother, rfl⟩ := Option.map_eq_some_iff.mp hid
    obtain ⟨hin, _, _⟩ := (messageOf_eq_some h).mp hother
    exact absurd (h.earlier other hin _ hmem) (h.messagesDrawn other hin).not_gt
  have hwalk := hvisited.walk
  rw [Postorder.visit, if_neg List.not_mem_nil, hparentsNew]
  cases hheadId : branch.headId with
  | none =>
    rw [hheadId] at hwalk
    rw [hwalk]
    rfl
  | some headId =>
    rw [hheadId] at hwalk
    have hne : headId ≠ s.fresh := (hhead headId hheadId).ne
    have hvisit : Postorder.visit (parentsOf s' conversationId) (s.fresh + 2) [] headId = some visited :=
      (Postorder.visit_congr hparentsSame hnever hne).trans hwalk
    simp [hvisit]

theorem branchMessages_added (h : WellFormed s) {conversation : Conversation}
    (hconversation : conversation ∈ s.conversations) {branch : Branch} (hbranch : branch ∈ s.branches)
    {branchId : Option Id} {role : Option Role} {content : Units}
    (hbranchId : branchId.getD conversation.activeBranchId = branch.id)
    (hadd : addMessage conversation.id branchId role content none s = .ok (message, s')) {visited : List Id}
    (hvisited : VisitedFrom s conversation.id branch visited) :
    branchMessages s' conversation.id branch.id = .ok (some (readOf s conversation.id branch.id visited ++ [message])) := by
  have hwell := h.changes (addMessage_changes h hadd)
  obtain ⟨role, _, hadd⟩ := bind_ok.mp hadd
  obtain ⟨conversation', hfound, hadd⟩ := bind_ok.mp hadd
  obtain rfl : conversation = conversation' := Except.ok.inj ((findById_of_mem h.conversationIds hconversation).symm.trans hfound)
  obtain ⟨branch', hfoundBranch, hadd⟩ := bind_ok.mp hadd
  rw [hbranchId] at hfoundBranch
  obtain rfl : branch = branch' := Except.ok.inj ((findById_of_mem h.branchIds hbranch).symm.trans hfoundBranch)
  obtain ⟨_, _, hadd⟩ := bind_ok.mp hadd
  obtain ⟨_, _, hadd⟩ := bind_ok.mp hadd
  obtain ⟨content, _, hadd⟩ := bind_ok.mp hadd
  obtain ⟨hmessage, hs'⟩ := Prod.mk.inj (Except.ok.inj hadd)
  have hparents : message.parents = branch.headId.toList := by
    rw [← hmessage]
    cases branch.headId <;> rfl
  have hid : message.id = s.fresh := congrArg Message.id hmessage.symm
  have hmine : message.conversationId = conversation.id := congrArg Message.conversationId hmessage.symm
  have hmessages : s'.messages = s.messages ++ [message] := by
    rw [← hs', ← hmessage]
    rfl
  have hin : { conversation with activeBranchId := branch.id } ∈ s'.conversations := by
    rw [← hs']
    exact List.mem_map.mpr ⟨conversation, hconversation, if_pos rfl⟩
  have hinBranch : { branch with headId := some s.fresh } ∈ s'.branches := by
    rw [← hs']
    exact List.mem_map.mpr ⟨branch, hbranch, if_pos rfl⟩
  have hfresh : s'.fresh = s.fresh + 1 := congrArg State.fresh hs'.symm
  obtain ⟨visited', hvisited'⟩ := visitedFrom hwell hinBranch conversation.id
  have hread := branchMessages_of_visited hwell hin hinBranch hvisited'
  have hwalk := hvisited'.walk
  simp only [hfresh] at hwalk
  have hsnoc := walk_snoc h hid (h.heads branch hbranch) hparents hmine hmessages hvisited
  obtain rfl : visited ++ [s.fresh] = visited' := Option.some.inj (hsnoc.symm.trans hwalk)
  obtain ⟨hnew, hsame⟩ := messageOf_snoc h hid hmine hmessages
  have hvisible : branch.id ∉ message.excludedInBranchIds := by
    rw [← hmessage]
    exact List.not_mem_nil
  have hbefore : visited.filterMap (messageOf s' conversation.id) = visited.filterMap (messageOf s conversation.id) := by
    apply List.filterMap_congr
    intro id hmem
    obtain ⟨headId, hhead, hreached⟩ := (hvisited.mem id).mp hmem
    have hle := hreached.rank_le (ranks_id h)
    exact hsame id (hle.trans_lt (h.heads branch hbranch headId hhead)).ne
  refine hread.trans ?_
  congr 2
  rw [readOf, List.filterMap_append, hbefore, List.filter_append]
  simp [readOf, hnew, hvisible]

end Adding

/-- A branch reads as its history, with no regard to what is excluded in other branches, and what is added to it is
read at its end. -/
theorem branch_reads_as_history {ns : Numbers} {s : State} (h : Reachable ns s) {conversation : Conversation}
    (hconversation : conversation ∈ s.conversations) {branch : Branch} (hbranch : branch ∈ s.branches) :
    ∃ result, branchMessages s conversation.id branch.id = .ok (some result) ∧
      ReadsAsHistory s conversation.id branch result ∧
      (∀ messageId branchId excluded, branch.id ≠ branchId → ∃ result',
        branchMessages (step ns s (.setMessageExcluded messageId branchId excluded)) conversation.id branch.id =
          .ok (some result') ∧ result'.map Message.unmarked = result.map Message.unmarked) ∧
      ∀ branchId role content message s', branchId.getD conversation.activeBranchId = branch.id →
        addMessage conversation.id branchId role content none s = .ok (message, s') →
        branchMessages s' conversation.id branch.id = .ok (some (result ++ [message])) := by
  have hwell := wellFormed_of_reachable h
  obtain ⟨visited, hvisited⟩ := visitedFrom hwell hbranch conversation.id
  have hread := branchMessages_of_visited hwell hconversation hbranch hvisited
  refine ⟨_, hread, readsAsHistory_of_visited hwell hvisited.ordered hvisited.mem, ?_, ?_⟩
  · intro messageId branchId excluded hother
    change ∃ result', branchMessages (transact (setMessageExcluded messageId branchId excluded) s).2 _ _ = _ ∧ _
    unfold transact
    cases hset : setMessageExcluded messageId branchId excluded s with
    | error => exact ⟨_, hread, rfl⟩
    | ok => exact branchMessages_excluded hwell hconversation hbranch hother hset hvisited
  · intro branchId role content message s' hbranchId hadd
    exact branchMessages_added hwell hconversation hbranch hbranchId hadd hvisited

def greeted : State := [Call.createConversation none (some .ask), .addMessage 0 none (some .user) (text "a") none].foldl
  (step zeroAndOne) (initial [] 0)

def greetedBranch : Branch := ⟨1, 0, text "main", some 2, none⟩

theorem branch_reads_as_history_greeted :
    ∃ result, branchMessages greeted 0 1 = .ok (some result) ∧ ReadsAsHistory greeted 0 greetedBranch result := by
  have hbranch : greetedBranch ∈ greeted.branches := List.mem_singleton.mpr rfl
  have hconversation : (⟨0, none, .ask, 1, []⟩ : Conversation) ∈ greeted.conversations := List.mem_singleton.mpr rfl
  obtain ⟨result, hread, hhistory, _⟩ := branch_reads_as_history ⟨[], 0, _, rfl⟩ hconversation hbranch
  exact ⟨result, hread, hhistory⟩

end Noesar.Conversations
