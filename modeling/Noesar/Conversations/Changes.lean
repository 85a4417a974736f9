import Noesar.Conversations.Graph

namespace Noesar.Conversations

open Lib Lib.Utf16 Lib.Json Canonical Context

/-- What a call can do to the conversations of a state. -/
inductive Changes : State → State → Prop
  | none (s : State) : Changes s s
  | created (s : State) (projectId : Option Id) (mode : Mode) (name : Units) : Changes s { s with
      conversations := s.conversations ++ [⟨s.fresh, projectId, mode, s.fresh + 1, []⟩]
      branches := s.branches ++ [⟨s.fresh + 1, s.fresh, name, .none, .none⟩]
      fresh := s.fresh + 2 }
  | placed {s : State} {message : Message} {conversations : List Conversation} :
      message.id = s.fresh → (∀ p ∈ message.parents, p < s.fresh) →
      conversations.map Conversation.id = s.conversations.map Conversation.id →
      conversations.map Conversation.contextFacts = s.conversations.map Conversation.contextFacts →
      Changes s { place message s with conversations := conversations }
  | opened {s : State} {branch : Branch} : branch.id = s.fresh → (∀ head ∈ branch.headId, head < s.fresh) →
      Changes s (openBranch branch s)
  | marked {s : State} {message : Message} (ids : List Id) : message ∈ s.messages → Changes s { s with
      messages := s.messages.map fun item ↦ if item.id = message.id then { message with excludedInBranchIds := ids } else item }
  | moved {s : State} (branchId : Id) {headId : Option Id} : (∀ head ∈ headId, head < s.fresh) →
      Changes s { s with branches := setHead branchId headId s.branches }
  | purged (s : State) (conversationId : Id) : Changes s { s with
      branches := s.branches.filter fun item ↦ item.conversationId ≠ conversationId
      messages := s.messages.filter fun item ↦ item.conversationId ≠ conversationId
      conversations := s.conversations.filter fun item ↦ item.id ≠ conversationId }
  | recorded {s : State} {conversation : Conversation} {spec : SectionSpec} {sectionName : Units} {normalised : Fact} (time : Units) :
      conversation ∈ s.conversations → sectionNamed sectionName = some spec → InSchema spec normalised → Changes s { s with
        conversations := s.conversations.map fun item ↦
          if item.id = conversation.id then
            { item with contextFacts := conversation.contextFacts ++ [contextFact sectionName normalised time] }
          else item }

/-- What holds of the conversations at all times: every id has been drawn, and is one thing's only; and what comes before a
message was there first. -/
structure WellFormed (s : State) : Prop where
  conversationIds : (s.conversations.map Conversation.id).Nodup
  conversationsDrawn : ∀ conversation ∈ s.conversations, conversation.id < s.fresh
  branchIds : (s.branches.map Branch.id).Nodup
  branchesDrawn : ∀ branch ∈ s.branches, branch.id < s.fresh
  messageIds : (s.messages.map Message.id).Nodup
  messagesDrawn : ∀ message ∈ s.messages, message.id < s.fresh
  earlier : ∀ message ∈ s.messages, ∀ p ∈ message.parents, p < message.id
  heads : ∀ branch ∈ s.branches, ∀ head ∈ branch.headId, head < s.fresh

section Finding

variable {s s' : State} {id : Id} {label : String}

variable {α : Type}

theorem findById_ok {idOf : α → Id} {items : List α} {item : α} (h : findById idOf items id label = .ok item) :
    item ∈ items ∧ idOf item = id := by
  rw [findById, demand_ok] at h
  exact ⟨List.mem_of_find?_eq_some h, by simpa using List.find?_some h⟩

theorem findById_of_mem {idOf : α → Id} {items : List α} {item : α} (hnodup : (items.map idOf).Nodup)
    (h : item ∈ items) : findById idOf items (idOf item) label = .ok item := by
  rw [findById, demand_ok]
  obtain ⟨found, hfound⟩ : ∃ found, items.find? (fun candidate ↦ idOf candidate = idOf item) = some found := by
    rw [← Option.isSome_iff_exists, List.find?_isSome]
    exact ⟨item, h, decide_eq_true rfl⟩
  have hsame : idOf found = idOf item := by simpa using List.find?_some hfound
  rw [hfound, List.inj_on_of_nodup_map hnodup (List.mem_of_find?_eq_some hfound) h hsame]

theorem setActive_ids (conversationId branchId : Id) (conversations : List Conversation) :
    (setActive conversationId branchId conversations).map Conversation.id = conversations.map Conversation.id ∧
    (setActive conversationId branchId conversations).map Conversation.contextFacts =
      conversations.map Conversation.contextFacts := by
  constructor
  all_goals
    rw [setActive, List.map_map]
    apply List.map_congr_left
    intro conversation _
    rw [Function.comp_apply]
    split <;> rfl

theorem transact_changes {mutator : State → Except Thrown (α × State)}
    (h : ∀ result s', mutator s = .ok (result, s') → Changes s s') : Changes s (transact mutator s).2 := by
  unfold transact
  cases hmutator : mutator s with
  | error => exact .none s
  | ok outcome => exact h outcome.1 outcome.2 hmutator

end Finding

section Calls

variable {s s' : State} (h : WellFormed s)

include h

variable {conversationId : Id} {branchId : Option Id} {content : Units} {message : Message}

theorem addMessage_changes {role : Option Role} {parentIds : Option (List Id)}
    (hadd : addMessage conversationId branchId role content parentIds s = .ok (message, s')) : Changes s s' := by
  obtain ⟨role, _, hadd⟩ := bind_ok.mp hadd
  obtain ⟨conversation, _, hadd⟩ := bind_ok.mp hadd
  obtain ⟨branch, hbranch, hadd⟩ := bind_ok.mp hadd
  obtain ⟨_, _, hadd⟩ := bind_ok.mp hadd
  obtain ⟨_, hparents, hadd⟩ := bind_ok.mp hadd
  obtain ⟨content, _, hadd⟩ := bind_ok.mp hadd
  obtain ⟨rfl, rfl⟩ := Prod.mk.inj (Except.ok.inj hadd)
  refine .placed rfl ?_ (setActive_ids _ _ _).1 (setActive_ids _ _ _).2
  intro p hp
  rw [List.mem_eraseDups] at hp
  have hfound := forM_ok.mp hparents p hp
  cases hmessage : findMessage s p "Parent message" with
  | error =>
    rw [hmessage] at hfound
    cases hfound
  | ok parent =>
    obtain ⟨hmem, rfl⟩ := findById_ok hmessage
    exact h.messagesDrawn parent hmem

theorem replaced_changes {original replacement : Message} {conversations : List Conversation} (horiginal : original ∈ s.messages)
    (hid : replacement.id = s.fresh) (hparents : replacement.parents = original.parents)
    (hids : conversations.map Conversation.id = s.conversations.map Conversation.id)
    (hfacts : conversations.map Conversation.contextFacts = s.conversations.map Conversation.contextFacts) :
    Changes s { place replacement s with conversations := conversations } := by
  refine .placed hid ?_ hids hfacts
  intro p hp
  rw [hparents] at hp
  exact (h.earlier original horiginal p hp).trans (h.messagesDrawn original horiginal)

theorem editMessage_changes {messageId : Id} (hedit : editMessage messageId branchId content s = .ok (message, s')) :
    Changes s s' := by
  obtain ⟨original, horiginal, hedit⟩ := bind_ok.mp hedit
  obtain ⟨branch, _, hedit⟩ := bind_ok.mp hedit
  obtain ⟨content, _, hedit⟩ := bind_ok.mp hedit
  obtain ⟨conversation, _, hedit⟩ := bind_ok.mp hedit
  obtain ⟨rfl, rfl⟩ := Prod.mk.inj (Except.ok.inj hedit)
  exact replaced_changes h (findById_ok horiginal).1 rfl rfl (setActive_ids _ _ _).1 (setActive_ids _ _ _).2

theorem regenerateMessage_changes {messageId : Id}
    (hregenerate : regenerateMessage messageId branchId content s = .ok (message, s')) : Changes s s' := by
  obtain ⟨original, horiginal, hregenerate⟩ := bind_ok.mp hregenerate
  obtain ⟨_, _, hregenerate⟩ := bind_ok.mp hregenerate
  obtain ⟨branch, _, hregenerate⟩ := bind_ok.mp hregenerate
  obtain ⟨content, _, hregenerate⟩ := bind_ok.mp hregenerate
  obtain ⟨rfl, rfl⟩ := Prod.mk.inj (Except.ok.inj hregenerate)
  exact replaced_changes h (findById_ok horiginal).1 rfl rfl rfl rfl

theorem fork_changes {fromMessageId : Id} {name : Units} {branch : Branch}
    (hfork : fork conversationId fromMessageId name s = .ok (branch, s')) : Changes s s' := by
  obtain ⟨conversation, _, hfork⟩ := bind_ok.mp hfork
  obtain ⟨message, hmessage, hfork⟩ := bind_ok.mp hfork
  obtain ⟨_, _, hfork⟩ := bind_ok.mp hfork
  obtain ⟨rfl, rfl⟩ := Prod.mk.inj (Except.ok.inj hfork)
  refine .opened rfl ?_
  intro head hhead
  obtain rfl := Option.some.inj hhead
  exact h.messagesDrawn message (findById_ok hmessage).1

theorem merge_changes {sourceBranchId targetBranchId : Id} {note : Units}
    (hmerge : merge conversationId sourceBranchId targetBranchId note s = .ok (message, s')) : Changes s s' := by
  obtain ⟨conversation, _, hmerge⟩ := bind_ok.mp hmerge
  obtain ⟨source, hsource, hmerge⟩ := bind_ok.mp hmerge
  obtain ⟨target, htarget, hmerge⟩ := bind_ok.mp hmerge
  obtain ⟨_, _, hmerge⟩ := bind_ok.mp hmerge
  obtain ⟨content, _, hmerge⟩ := bind_ok.mp hmerge
  obtain ⟨rfl, rfl⟩ := Prod.mk.inj (Except.ok.inj hmerge)
  refine .placed rfl ?_ (setActive_ids _ _ _).1 (setActive_ids _ _ _).2
  intro p hp
  rw [List.mem_eraseDups, List.mem_append, Option.mem_toList, Option.mem_toList] at hp
  rcases hp with hp | hp
  · exact h.heads source (findById_ok hsource).1 p hp
  · exact h.heads target (findById_ok htarget).1 p hp

theorem undo_changes {branchId : Id} {branch : Branch} (hundo : undo branchId s = .ok (branch, s')) : Changes s s' := by
  obtain ⟨found, _, hundo⟩ := bind_ok.mp hundo
  split at hundo
  · obtain ⟨_, rfl⟩ := Prod.mk.inj (Except.ok.inj hundo)
    exact .none s
  · obtain ⟨head, hhead, hundo⟩ := bind_ok.mp hundo
    obtain ⟨_, rfl⟩ := Prod.mk.inj (Except.ok.inj hundo)
    refine .moved branchId ?_
    intro p hp
    have hmem := (findById_ok hhead).1
    exact (h.earlier head hmem p (List.mem_of_mem_head? hp)).trans (h.messagesDrawn head hmem)

end Calls

section Others

variable {s s' : State}

theorem createConversation_changes {projectId : Option Id} {mode : Option Mode} {result : Id}
    (hcreate : createConversation projectId mode s = .ok (result, s')) : Changes s s' := by
  obtain ⟨mode, _, hcreate⟩ := bind_ok.mp hcreate
  cases projectId with
  | none =>
    obtain ⟨_, rfl⟩ := Prod.mk.inj (Except.ok.inj hcreate)
    exact .created s none mode _
  | some projectId =>
    obtain ⟨_, _, hcreate⟩ := bind_ok.mp hcreate
    obtain ⟨_, rfl⟩ := Prod.mk.inj (Except.ok.inj hcreate)
    exact .created s (some projectId) mode _

theorem clearConversation_changes {conversationId : Id} {name : Option Units} {result : Branch × Id × ℕ}
    (hclear : clearConversation conversationId name s = .ok (result, s')) : Changes s s' := by
  obtain ⟨conversation, _, hclear⟩ := bind_ok.mp hclear
  obtain ⟨_, rfl⟩ := Prod.mk.inj (Except.ok.inj hclear)
  exact .opened rfl fun _ hhead ↦ nomatch hhead

theorem setMessageExcluded_changes {messageId branchId : Id} {excluded : Bool} {message : Message}
    (hset : setMessageExcluded messageId branchId excluded s = .ok (message, s')) : Changes s s' := by
  obtain ⟨found, hfound, hset⟩ := bind_ok.mp hset
  obtain ⟨_, _, hset⟩ := bind_ok.mp hset
  obtain ⟨_, rfl⟩ := Prod.mk.inj (Except.ok.inj hset)
  obtain ⟨hmem, rfl⟩ := findById_ok hfound
  exact .marked _ hmem

theorem purgeSession_changes {conversationId id : Id} (hpurge : purgeSession conversationId s = .ok (id, s')) : Changes s s' := by
  obtain ⟨conversation, _, hpurge⟩ := bind_ok.mp hpurge
  obtain ⟨_, rfl⟩ := Prod.mk.inj (Except.ok.inj hpurge)
  exact .purged s conversationId

theorem recordContextFact_changes (ns : Numbers) (conversationId : Id) (sectionName : Units) (value : JsValue) (time : Units) :
    Changes s (recordContextFact ns conversationId sectionName value time s).2 := by
  unfold recordContextFact
  cases hvalidate : validateFact ns sectionName value with
  | error => exact .none s
  | ok =>
    refine transact_changes ?_
    intro result s' hrecord
    obtain ⟨conversation, hconversation, hrecord⟩ := bind_ok.mp hrecord
    obtain ⟨_, rfl⟩ := Prod.mk.inj (Except.ok.inj hrecord)
    obtain ⟨hmem, rfl⟩ := findById_ok hconversation
    obtain ⟨spec, _, hspec, _⟩ := validateFact_ok.mp hvalidate
    exact .recorded time hmem hspec (inSchema_of_validateFact hspec hvalidate)

end Others

theorem step_changes (ns : Numbers) {s : State} (h : WellFormed s) (call : Call) : Changes s (step ns s call) := by
  cases call with
  | createConversation => exact transact_changes fun _ _ ↦ createConversation_changes
  | addMessage => exact transact_changes fun _ _ ↦ addMessage_changes h
  | editMessage => exact transact_changes fun _ _ ↦ editMessage_changes h
  | regenerateMessage => exact transact_changes fun _ _ ↦ regenerateMessage_changes h
  | fork => exact transact_changes fun _ _ ↦ fork_changes h
  | clearConversation => exact transact_changes fun _ _ ↦ clearConversation_changes
  | merge => exact transact_changes fun _ _ ↦ merge_changes h
  | setMessageExcluded => exact transact_changes fun _ _ ↦ setMessageExcluded_changes
  | undo => exact transact_changes fun _ _ ↦ undo_changes h
  | purgeSession => exact transact_changes fun _ _ ↦ purgeSession_changes
  | recordContextFact => exact recordContextFact_changes ns _ _ _ _

section Invariant

variable {s s' : State}

theorem wellFormed_initial (projects : List Id) (fresh : Id) : WellFormed (initial projects fresh) := by
  constructor <;> simp [initial]

theorem nodup_snoc {α : Type} {idOf : α → Id} {items : List α} {item : α} {fresh : Id} (hnodup : (items.map idOf).Nodup)
    (hdrawn : ∀ other ∈ items, idOf other < fresh) (hitem : fresh ≤ idOf item) : ((items ++ [item]).map idOf).Nodup := by
  rw [List.map_append, List.map_singleton, List.nodup_append]
  refine ⟨hnodup, List.nodup_singleton _, ?_⟩
  intro a ha b hb heq
  obtain ⟨other, hother, rfl⟩ := List.mem_map.mp ha
  have hlt := hdrawn other hother
  rw [List.mem_singleton.mp hb] at heq
  exact absurd heq (hlt.trans_le hitem).ne

theorem setHead_ids (branchId : Id) (headId : Option Id) (branches : List Branch) :
    (setHead branchId headId branches).map Branch.id = branches.map Branch.id := by
  rw [setHead, List.map_map]
  apply List.map_congr_left
  intro branch _
  rw [Function.comp_apply]
  split <;> rfl

theorem mem_of_ids {α : Type} {idOf : α → Id} {items items' : List α} (h : items'.map idOf = items.map idOf) {item : α}
    (hitem : item ∈ items') : ∃ other ∈ items, idOf other = idOf item := by
  have hmem : idOf item ∈ items'.map idOf := List.mem_map_of_mem hitem
  rw [h] at hmem
  exact List.mem_map.mp hmem

theorem heads_setHead {branchId fresh : Id} {headId : Option Id} {branches : List Branch}
    (h : ∀ branch ∈ branches, ∀ head ∈ branch.headId, head < fresh) (hhead : ∀ head ∈ headId, head < fresh) :
    ∀ branch ∈ setHead branchId headId branches, ∀ head ∈ branch.headId, head < fresh := by
  intro branch hbranch
  obtain ⟨before, hbefore, rfl⟩ := List.mem_map.mp hbranch
  split
  · exact hhead
  · exact h before hbefore

theorem WellFormed.place (h : WellFormed s) {message : Message} (hid : message.id = s.fresh)
    (hparents : ∀ p ∈ message.parents, p < s.fresh) : WellFormed (place message s) := by
  constructor
  case conversationIds => exact h.conversationIds
  case conversationsDrawn => exact fun conversation hmem ↦ Nat.lt_succ_of_lt (h.conversationsDrawn conversation hmem)
  case branchIds =>
    rw [Conversations.place, setHead_ids]
    exact h.branchIds
  case branchesDrawn =>
    intro branch hbranch
    obtain ⟨before, hbefore, hsame⟩ := mem_of_ids (setHead_ids _ _ _) hbranch
    rw [← hsame]
    exact Nat.lt_succ_of_lt (h.branchesDrawn before hbefore)
  case messageIds => exact nodup_snoc h.messageIds h.messagesDrawn hid.ge
  case messagesDrawn =>
    intro other hother
    rcases List.mem_append.mp hother with hother | hother
    · exact Nat.lt_succ_of_lt (h.messagesDrawn other hother)
    · rw [List.mem_singleton.mp hother, hid]
      exact Nat.lt_succ_self _
  case earlier =>
    intro other hother
    rcases List.mem_append.mp hother with hother | hother
    · exact h.earlier other hother
    · rw [List.mem_singleton.mp hother, hid]
      exact hparents
  case heads =>
    refine heads_setHead (fun branch hbranch head hhead ↦ Nat.lt_succ_of_lt (h.heads branch hbranch head hhead)) ?_
    intro head hhead
    obtain rfl := Option.some.inj hhead
    rw [hid]
    exact Nat.lt_succ_self _

theorem WellFormed.conversations (h : WellFormed s) {conversations : List Conversation}
    (hids : conversations.map Conversation.id = s.conversations.map Conversation.id) :
    WellFormed { s with conversations := conversations } := by
  refine ⟨hids ▸ h.conversationIds, ?_, h.branchIds, h.branchesDrawn, h.messageIds, h.messagesDrawn, h.earlier, h.heads⟩
  intro conversation hmem
  obtain ⟨before, hbefore, hsame⟩ := mem_of_ids hids hmem
  rw [← hsame]
  exact h.conversationsDrawn before hbefore

theorem WellFormed.openBranch (h : WellFormed s) {branch : Branch} (hid : branch.id = s.fresh)
    (hhead : ∀ head ∈ branch.headId, head < s.fresh) : WellFormed (openBranch branch s) := by
  have hactive := h.conversations (setActive_ids branch.conversationId branch.id s.conversations).1
  refine ⟨hactive.conversationIds, ?_, nodup_snoc h.branchIds h.branchesDrawn hid.ge, ?_, h.messageIds, ?_, h.earlier, ?_⟩
  · exact fun conversation hmem ↦ Nat.lt_succ_of_lt (hactive.conversationsDrawn conversation hmem)
  · intro other hother
    rcases List.mem_append.mp hother with hother | hother
    · exact Nat.lt_succ_of_lt (h.branchesDrawn other hother)
    · rw [List.mem_singleton.mp hother, hid]
      exact Nat.lt_succ_self _
  · exact fun message hmem ↦ Nat.lt_succ_of_lt (h.messagesDrawn message hmem)
  · intro other hother head hmem
    rcases List.mem_append.mp hother with hother | hother
    · exact Nat.lt_succ_of_lt (h.heads other hother head hmem)
    · rw [List.mem_singleton.mp hother] at hmem
      exact Nat.lt_succ_of_lt (hhead head hmem)

theorem WellFormed.changes (h : WellFormed s) (hchanges : Changes s s') : WellFormed s' := by
  cases hchanges with
  | none => exact h
  | created =>
    refine ⟨nodup_snoc h.conversationIds h.conversationsDrawn le_rfl, ?_,
      nodup_snoc h.branchIds h.branchesDrawn (Nat.le_succ _), ?_, h.messageIds, ?_, h.earlier, ?_⟩
    · intro conversation hmem
      rcases List.mem_append.mp hmem with hmem | hmem
      · exact (h.conversationsDrawn conversation hmem).trans (Nat.lt_add_of_pos_right (by decide))
      · rw [List.mem_singleton.mp hmem]
        exact Nat.lt_add_of_pos_right (by decide)
    · intro branch hmem
      rcases List.mem_append.mp hmem with hmem | hmem
      · exact (h.branchesDrawn branch hmem).trans (Nat.lt_add_of_pos_right (by decide))
      · rw [List.mem_singleton.mp hmem]
        exact Nat.lt_succ_self _
    · exact fun message hmem ↦ (h.messagesDrawn message hmem).trans (Nat.lt_add_of_pos_right (by decide))
    · intro branch hmem head hhead
      rcases List.mem_append.mp hmem with hmem | hmem
      · exact (h.heads branch hmem head hhead).trans (Nat.lt_add_of_pos_right (by decide))
      · rw [List.mem_singleton.mp hmem] at hhead
        cases hhead
  | placed hid hparents hids => exact (h.place hid hparents).conversations hids
  | opened hid hhead => exact h.openBranch hid hhead
  | @marked message ids hmem =>
    have hsame : ∀ item ∈ s.messages.map (fun item ↦
        if item.id = message.id then { message with excludedInBranchIds := ids } else item),
        ∃ before ∈ s.messages, before.id = item.id ∧ before.parents = item.parents := by
      intro item hitem
      obtain ⟨before, hbefore, rfl⟩ := List.mem_map.mp hitem
      split
      · exact ⟨message, hmem, rfl, rfl⟩
      · exact ⟨before, hbefore, rfl, rfl⟩
    refine ⟨h.conversationIds, h.conversationsDrawn, h.branchIds, h.branchesDrawn, ?_, ?_, ?_, h.heads⟩
    · rw [List.map_map]
      refine (List.map_congr_left ?_).symm ▸ h.messageIds
      intro item _
      rw [Function.comp_apply]
      split
      · rename_i heq
        exact heq.symm
      · rfl
    · intro item hitem
      obtain ⟨before, hbefore, hid, _⟩ := hsame item hitem
      exact hid ▸ h.messagesDrawn before hbefore
    · intro item hitem
      obtain ⟨before, hbefore, hid, hparents⟩ := hsame item hitem
      rw [← hid, ← hparents]
      exact h.earlier before hbefore
  | @moved branchId headId hhead =>
    refine ⟨h.conversationIds, h.conversationsDrawn, (setHead_ids _ _ _).symm ▸ h.branchIds, ?_, h.messageIds, h.messagesDrawn,
      h.earlier, heads_setHead h.heads hhead⟩
    intro branch hbranch
    obtain ⟨before, hbefore, hsame⟩ := mem_of_ids (setHead_ids _ _ _) hbranch
    rw [← hsame]
    exact h.branchesDrawn before hbefore
  | purged =>
    exact ⟨h.conversationIds.sublist (List.filter_sublist.map _), fun _ hmem ↦ h.conversationsDrawn _ (List.mem_filter.mp hmem).1,
      h.branchIds.sublist (List.filter_sublist.map _), fun _ hmem ↦ h.branchesDrawn _ (List.mem_filter.mp hmem).1,
      h.messageIds.sublist (List.filter_sublist.map _), fun _ hmem ↦ h.messagesDrawn _ (List.mem_filter.mp hmem).1,
      fun _ hmem ↦ h.earlier _ (List.mem_filter.mp hmem).1, fun _ hmem ↦ h.heads _ (List.mem_filter.mp hmem).1⟩
  | recorded =>
    apply h.conversations
    rw [List.map_map]
    apply List.map_congr_left
    intro item _
    rw [Function.comp_apply]
    split <;> rfl

theorem wellFormed_of_reachable {ns : Numbers} (h : Reachable ns s) : WellFormed s := by
  obtain ⟨projects, fresh, calls, rfl⟩ := h
  induction calls using List.reverseRecOn with
  | nil => exact wellFormed_initial projects fresh
  | append_singleton calls call ih =>
    rw [List.foldl_append]
    exact ih.changes (step_changes ns ih call)

end Invariant

end Noesar.Conversations
