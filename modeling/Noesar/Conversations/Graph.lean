import Noesar.Context.Projection
import Noesar.Lib.Postorder

namespace Noesar.Conversations

open Lib Lib.Utf16 Lib.Json Canonical Context
open Author (text trim)

abbrev Id := ℕ

structure Thrown where
  message : Units
  status : ℕ

inductive Mode
  | ask
  | create
  | act
  deriving DecidableEq

inductive Role
  | system
  | user
  | assistant
  | tool
  deriving DecidableEq

structure Conversation where
  id : Id
  projectId : Option Id
  mode : Mode
  activeBranchId : Id
  contextFacts : List JsValue

structure Branch where
  id : Id
  conversationId : Id
  name : Units
  headId : Option Id
  forkedFromMessageId : Option Id

structure Message where
  id : Id
  conversationId : Id
  branchId : Id
  parents : List Id
  role : Role
  content : Units
  excludedInBranchIds : List Id
  supersedesId : Option Id
  regenerationOfId : Option Id
  deriving DecidableEq

/-- The part of the workspace that conversations are kept in. `fresh` is the next id of the platform's. -/
structure State where
  projects : List Id
  conversations : List Conversation
  branches : List Branch
  messages : List Message
  fresh : Id

def initial (projects : List Id) (fresh : Id) : State := ⟨projects, [], [], [], fresh⟩

def requiredText (value : Units) (field : String) (max : ℕ) : Except Thrown Units :=
  if trim value = [] then .error ⟨text field ++ text " is required.", 400⟩
  else if max < (trim value).length then
    .error ⟨text field ++ text " exceeds " ++ integerShown max ++ text " characters.", 413⟩
  else .ok (trim value)

def findById {α : Type} (idOf : α → Id) (items : List α) (id : Id) (label : String) : Except Thrown α :=
  demand (items.find? fun candidate ↦ idOf candidate = id) ⟨text label ++ text " not found.", 404⟩

def findConversation (state : State) (id : Id) : Except Thrown Conversation :=
  findById Conversation.id state.conversations id "Conversation"

def findBranch (state : State) (id : Id) (label : String) : Except Thrown Branch := findById Branch.id state.branches id label

def findMessage (state : State) (id : Id) (label : String) : Except Thrown Message := findById Message.id state.messages id label

/-- `branch.headId = headId` -/
def setHead (branchId : Id) (headId : Option Id) (branches : List Branch) : List Branch :=
  branches.map fun branch ↦ if branch.id = branchId then { branch with headId := headId } else branch

/-- `conversation.activeBranchId = branchId` -/
def setActive (conversationId branchId : Id) (conversations : List Conversation) : List Conversation :=
  conversations.map fun conversation ↦
    if conversation.id = conversationId then { conversation with activeBranchId := branchId } else conversation

def transact {α : Type} (mutator : State → Except Thrown (α × State)) (state : State) : Except Thrown α × State :=
  match mutator state with
  | .ok (result, state') => (.ok result, state')
  | .error e => (.error e, state)

/-- The mode is what `String(mode).toUpperCase()` names, where it names one. -/
def createConversation (projectId : Option Id) (mode : Option Mode) (state : State) : Except Thrown (Id × State) := do
  let mode ← demand mode ⟨text "mode must be ASK, CREATE or ACT.", 400⟩
  match projectId with
  | none => pure ()
  | some projectId => discard (findById id state.projects projectId "Project")
  let conversationId := state.fresh
  let branchId := state.fresh + 1
  return (conversationId, { state with
    conversations := state.conversations ++ [⟨conversationId, projectId, mode, branchId, []⟩]
    branches := state.branches ++ [⟨branchId, conversationId, text "main", none, none⟩]
    fresh := state.fresh + 2 })

def place (message : Message) (state : State) : State :=
  { state with
    messages := state.messages ++ [message]
    branches := setHead message.branchId (some message.id) state.branches
    fresh := state.fresh + 1 }

def addMessage (conversationId : Id) (branchId : Option Id) (role : Option Role) (content : Units) (parentIds : Option (List Id))
    (state : State) : Except Thrown (Message × State) := do
  let role ← demand role ⟨text "Invalid message role.", 400⟩
  let conversation ← findConversation state conversationId
  let branch ← findBranch state (branchId.getD conversation.activeBranchId) "Branch"
  require (branch.conversationId = conversation.id) ⟨text "Branch does not belong to conversation.", 409⟩
  let parents := parentIds.getD branch.headId.toList
  parents.forM fun parentId ↦ discard (findMessage state parentId "Parent message")
  let content ← requiredText content "message content" 200000
  let message : Message := ⟨state.fresh, conversationId, branch.id, parents.eraseDups, role, content, [], none, none⟩
  let placed := place message state
  return (message, { placed with conversations := setActive conversation.id branch.id placed.conversations })

def editMessage (messageId : Id) (branchId : Option Id) (content : Units) (state : State) : Except Thrown (Message × State) := do
  let original ← findMessage state messageId "Message"
  let branch ← findBranch state (branchId.getD original.branchId) "Branch"
  let content ← requiredText content "message content" 200000
  let replacement := { original with
    id := state.fresh, branchId := branch.id, content := content, supersedesId := some original.id, excludedInBranchIds := [] }
  let conversation ← findConversation state original.conversationId
  let placed := place replacement state
  return (replacement, { placed with conversations := setActive conversation.id branch.id placed.conversations })

def regenerateMessage (messageId : Id) (branchId : Option Id) (content : Units) (state : State) :
    Except Thrown (Message × State) := do
  let original ← findMessage state messageId "Message"
  require (original.role = .assistant) ⟨text "Only assistant messages can be regenerated.", 400⟩
  let branch ← findBranch state (branchId.getD original.branchId) "Branch"
  let content ← requiredText content "message content" 200000
  let replacement := { original with
    id := state.fresh, branchId := branch.id, content := content, regenerationOfId := some original.id, supersedesId := none,
    excludedInBranchIds := [] }
  return (replacement, place replacement state)

def openBranch (branch : Branch) (state : State) : State :=
  { state with
    branches := state.branches ++ [branch]
    conversations := setActive branch.conversationId branch.id state.conversations
    fresh := state.fresh + 1 }

def fork (conversationId fromMessageId : Id) (name : Units) (state : State) : Except Thrown (Branch × State) := do
  let conversation ← findConversation state conversationId
  let message ← findMessage state fromMessageId "Message"
  require (message.conversationId = conversation.id) ⟨text "Message does not belong to conversation.", 409⟩
  let branch : Branch := ⟨state.fresh, conversationId, name.take 100, some message.id, some message.id⟩
  return (branch, openBranch branch state)

/-- `/^clean(-\d+)?$/` -/
def isClean (name : Units) : Bool :=
  name = text "clean" ||
    (name.take 6 = text "clean-" && name.drop 6 ≠ [] && (name.drop 6).all fun u ↦ (Char.ofNat u.toNat).isDigit)

def clearConversation (conversationId : Id) (name : Option Units) (state : State) :
    Except Thrown ((Branch × Id × ℕ) × State) := do
  let conversation ← findConversation state conversationId
  let cleared := state.branches.countP fun item ↦ item.conversationId = conversation.id && isClean item.name
  let branch : Branch :=
    ⟨state.fresh, conversationId, (name.getD (text "clean-" ++ integerShown (cleared + 1))).take 100, none, none⟩
  let kept := state.messages.countP fun item ↦ item.branchId = conversation.activeBranchId
  return ((branch, conversation.activeBranchId, kept), openBranch branch state)

def merge (conversationId sourceBranchId targetBranchId : Id) (note : Units) (state : State) :
    Except Thrown (Message × State) := do
  let conversation ← findConversation state conversationId
  let source ← findBranch state sourceBranchId "Source branch"
  let target ← findBranch state targetBranchId "Target branch"
  require (source.conversationId = conversationId ∧ target.conversationId = conversationId)
    ⟨text "Branches must belong to the same conversation.", 409⟩
  let content ← requiredText note "merge note" 200000
  let message : Message := ⟨state.fresh, conversationId, target.id, (source.headId.toList ++ target.headId.toList).eraseDups,
    .system, content, [], none, none⟩
  let placed := place message state
  return (message, { placed with conversations := setActive conversation.id target.id placed.conversations })

/-- `set.add(branchId)` or `set.delete(branchId)` -/
def setExcluded (branchId : Id) (excluded : Bool) (ids : List Id) : List Id :=
  if excluded then (if branchId ∈ ids then ids else ids ++ [branchId]) else ids.filter fun id ↦ id ≠ branchId

def setMessageExcluded (messageId branchId : Id) (excluded : Bool) (state : State) : Except Thrown (Message × State) := do
  let message ← findMessage state messageId "Message"
  let _ ← findBranch state branchId "Branch"
  let changed := { message with excludedInBranchIds := setExcluded branchId excluded message.excludedInBranchIds }
  return (changed, { state with messages := state.messages.map fun item ↦ if item.id = messageId then changed else item })

def undo (branchId : Id) (state : State) : Except Thrown (Branch × State) := do
  let branch ← findBranch state branchId "Branch"
  match branch.headId with
  | none => return (branch, state)
  | some headId => do
    let head ← findMessage state headId "Message"
    return ({ branch with headId := head.parents.head? },
      { state with branches := setHead branchId head.parents.head? state.branches })

def purgeSession (conversationId : Id) (state : State) : Except Thrown (Id × State) := do
  let conversation ← findConversation state conversationId
  return (conversation.id, { state with
    branches := state.branches.filter fun item ↦ item.conversationId ≠ conversationId
    messages := state.messages.filter fun item ↦ item.conversationId ≠ conversationId
    conversations := state.conversations.filter fun item ↦ item.id ≠ conversationId })

section Facts

variable (ns : Numbers)

/-- A value as it is read back from the text the state is kept in, which has no negative zero. -/
def kept (value : JsValue) : JsValue := value.map id Canonical.value

def contextFact (sectionName : Units) (normalised : Fact) (time : Units) : JsValue :=
  .object [(text "section", .string sectionName), (text "value", kept normalised.toJs), (text "at", .string time)]

def recordContextFact (conversationId : Id) (sectionName : Units) (value : JsValue) (time : Units) (state : State) :
    Except (ContextSchemaViolation ⊕ Thrown) (Fact × ℕ) × State :=
  match validateFact ns sectionName value with
  | .error e => (.error (.inl e), state)
  | .ok normalised =>
    let outcome := transact (fun state ↦ do
      let conversation ← findConversation state conversationId
      let contextFacts := conversation.contextFacts ++ [contextFact sectionName normalised time]
      return ((normalised, contextFacts.length), { state with
        conversations := state.conversations.map fun item ↦
          if item.id = conversationId then { item with contextFacts := contextFacts } else item })) state
    (outcome.1.mapError .inr, outcome.2)

def contextFacts (conversationId : Id) (state : State) : Except Thrown (List JsValue) :=
  (findConversation state conversationId).map Conversation.contextFacts

def projectSessionContext (conversationId : Id) (state : State) : Except Thrown (Except String Projection) :=
  (contextFacts conversationId state).map (projectContext ns)

end Facts

inductive Call
  | createConversation (projectId : Option Id) (mode : Option Mode)
  | addMessage (conversationId : Id) (branchId : Option Id) (role : Option Role) (content : Units) (parentIds : Option (List Id))
  | editMessage (messageId : Id) (branchId : Option Id) (content : Units)
  | regenerateMessage (messageId : Id) (branchId : Option Id) (content : Units)
  | fork (conversationId fromMessageId : Id) (name : Units)
  | clearConversation (conversationId : Id) (name : Option Units)
  | merge (conversationId sourceBranchId targetBranchId : Id) (note : Units)
  | setMessageExcluded (messageId branchId : Id) (excluded : Bool)
  | undo (branchId : Id)
  | purgeSession (conversationId : Id)
  | recordContextFact (conversationId : Id) (sectionName : Units) (value : JsValue) (time : Units)

def step (ns : Numbers) (state : State) : Call → State
  | .createConversation projectId mode => (transact (createConversation projectId mode) state).2
  | .addMessage conversationId branchId role content parentIds =>
    (transact (addMessage conversationId branchId role content parentIds) state).2
  | .editMessage messageId branchId content => (transact (editMessage messageId branchId content) state).2
  | .regenerateMessage messageId branchId content => (transact (regenerateMessage messageId branchId content) state).2
  | .fork conversationId fromMessageId name => (transact (fork conversationId fromMessageId name) state).2
  | .clearConversation conversationId name => (transact (clearConversation conversationId name) state).2
  | .merge conversationId sourceBranchId targetBranchId note =>
    (transact (merge conversationId sourceBranchId targetBranchId note) state).2
  | .setMessageExcluded messageId branchId excluded => (transact (setMessageExcluded messageId branchId excluded) state).2
  | .undo branchId => (transact (undo branchId) state).2
  | .purgeSession conversationId => (transact (purgeSession conversationId) state).2
  | .recordContextFact conversationId sectionName value time =>
    (recordContextFact ns conversationId sectionName value time state).2

def Reachable (ns : Numbers) (state : State) : Prop := ∃ (projects : List Id) (fresh : Id) (calls : List Call),
  state = calls.foldl (step ns) (initial projects fresh)

section Reading

/-- `visited` and `ordered` -/
structure Walk where
  visited : List Id
  ordered : List Message

/-- `visit(id)`, which does not come to an end before it would have to call itself too deep. -/
def visit (byId : Id → Option Message) (branchId : Id) : ℕ → Walk → Id → Option Walk
  | 0, _, _ => none
  | depth + 1, walk, id =>
    if id ∈ walk.visited then some walk
    else
      match byId id with
      | none => some walk
      | some node =>
        (node.parents.foldlM (visit byId branchId depth) walk).map fun walk ↦
          ⟨walk.visited ++ [id], if branchId ∈ node.excludedInBranchIds then walk.ordered else walk.ordered ++ [node]⟩

def messageOf (state : State) (conversationId : Id) (id : Id) : Option Message :=
  (state.messages.filter fun item ↦ item.conversationId = conversationId).find? fun item ↦ item.id = id

def branchMessages (state : State) (conversationId branchId : Id) : Except Thrown (Option (List Message)) := do
  let _ ← findConversation state conversationId
  let branch ← findBranch state branchId "Branch"
  match branch.headId with
  | none => return some []
  | some headId =>
    return (visit (messageOf state conversationId) branch.id (state.fresh + 2) ⟨[], []⟩ headId).map Walk.ordered

end Reading

end Noesar.Conversations
