import Noesar.Streams.ToolCalls

namespace Noesar.Streams.ToolCalls

open Lib Lib.Utf16 Lib.Json Canonical Authority

/-- A call as a model makes it, with its number in the stream. -/
structure Spoken where
  index : Binary64
  id : Units
  name : Units
  argumentText : Units
  deriving DecidableEq

inductive Move
  | opens (call : Spoken) (piece : Units)
  | adds (call : Spoken) (piece : Units)

namespace Move

def call : Move → Spoken
  | opens call _ | adds call _ => call

def piece : Move → Units
  | opens _ piece | adds _ piece => piece

def opened : Move → Option Spoken
  | opens call _ => some call
  | adds _ _ => none

end Move

def said (call : Spoken) (moves : List Move) : Units := moves.flatMap fun move ↦ if move.call = call then move.piece else []

/-- Every call is opened once, before all that is added to it, and all of its text is said. -/
structure Interleaves (calls : List Spoken) (moves : List Move) : Prop where
  opened : moves.filterMap Move.opened = calls
  after : ∀ before call piece later, moves = before ++ .adds call piece :: later → call ∈ before.filterMap Move.opened
  whole : ∀ call ∈ calls, said call moves = call.argumentText

def Spells (v : Option JsValue) (piece : Units) : Prop := v = some (.string piece) ∨ piece = [] ∧ ∀ us, v ≠ some (.string us)

def Numbered (call : Spoken) (v : Option JsValue) : Prop := v = some (.number (.finite call.index))

/-- A fragment of a chat, which has the name and the identity of its call where it opens it. -/
def Makes (fragment : JsValue) (move : Move) : Prop :=
  Numbered move.call (property "index" fragment) ∧
    Spells ((property "function" fragment).bind (property "arguments")) move.piece ∧
    match move with
    | .opens call _ => property "id" fragment = some (.string call.id) ∧
      (property "function" fragment).bind (property "name") = some (.string call.name)
    | .adds _ _ => truthy (property "id" fragment) = false ∧
      truthy ((property "function" fragment).bind (property "name")) = false

def Foreign (ns : Numbers) (calls : List Spoken) (v : Option JsValue) : Prop :=
  ∃ x, v = some (.number (.finite x)) ∧ Legible ns (.finite x) ∧ ∀ call ∈ calls, call.index ≠ x

/-- How each of the styles encodes what is done for the calls. All else in a frame may be as it is. -/
inductive Carries (ns : Numbers) (calls : List Spoken) : Style → JsValue → List Move → Prop
  | fragments {event : JsValue} {fragments : List JsValue} {moves : List Move}
      (hfragments : fragmentsOf event = some (.array fragments)) (hmoves : List.Forall₂ Makes fragments moves) :
      Carries ns calls .openaiChat event moves
  | prose {event : JsValue} (h : ∀ fragments, fragmentsOf event ≠ some (.array fragments)) :
      Carries ns calls .openaiChat event []
  | block {event block : JsValue} {call : Spoken} (htype : isType "content_block_start" (some event))
      (hblock : property "content_block" event = some block) (huse : isType "tool_use" (some block))
      (hindex : Numbered call (property "index" event)) (hid : property "id" block = some (.string call.id))
      (hname : property "name" block = some (.string call.name)) :
      Carries ns calls .anthropicMessages event [.opens call []]
  | blockDelta {event : JsValue} {call : Spoken} {piece : Units} (htype : isType "content_block_delta" (some event))
      (hdelta : isType "input_json_delta" (property "delta" event)) (hindex : Numbered call (property "index" event))
      (hpiece : Spells ((property "delta" event).bind (property "partial_json")) piece) :
      Carries ns calls .anthropicMessages event [.adds call piece]
  | otherBlock {event : JsValue}
      (hstart : ¬(isType "content_block_start" (some event) ∧ isType "tool_use" (property "content_block" event)))
      (hdelta : isType "content_block_delta" (some event) → isType "input_json_delta" (property "delta" event) →
        Foreign ns calls (property "index" event)) : Carries ns calls .anthropicMessages event []
  | item {event item : JsValue} {call : Spoken} {piece : Units} (htype : isType "response.output_item.added" (some event))
      (hitem : property "item" event = some item) (hcall : isType "function_call" (some item))
      (hindex : Numbered call (property "output_index" event)) (hid : property "call_id" item = some (.string call.id))
      (hother : call.id = [] → truthy (property "id" item) = false)
      (hname : property "name" item = some (.string call.name)) (hpiece : Spells (property "arguments" item) piece) :
      Carries ns calls .openaiResponses event [.opens call piece]
  | itemDelta {event : JsValue} {call : Spoken} {piece : Units}
      (htype : isType "response.function_call_arguments.delta" (some event))
      (hindex : Numbered call (property "output_index" event)) (hpiece : Spells (property "delta" event) piece) :
      Carries ns calls .openaiResponses event [.adds call piece]
  | otherItem {event : JsValue}
      (hadded : ¬(isType "response.output_item.added" (some event) ∧ isType "function_call" (property "item" event)))
      (hdelta : isType "response.function_call_arguments.delta" (some event) →
        Foreign ns calls (property "output_index" event)) : Carries ns calls .openaiResponses event []

/-- Not too many calls, each with a number of its own, a name, and a text that is not too long. -/
structure Speakable (ns : Numbers) (calls : List Spoken) : Prop where
  few : calls.length ≤ maxCalls
  distinct : (calls.map Spoken.index).Nodup
  legible : ∀ call ∈ calls, Legible ns (.finite call.index)
  named : ∀ call ∈ calls, call.name ≠ []
  short : ∀ call ∈ calls, call.argumentText.length ≤ maxArgumentChars

/-- The frames of some calls, between others of whatever kind. -/
structure Streamed (ns : Numbers) (style : Style) (calls : List Spoken) (events : List JsValue) : Prop
    extends Speakable ns calls where
  carried : ∃ moves, List.Forall₂ (Carries ns calls style) events moves ∧ Interleaves calls moves.flatten

def keyFor (ns : Numbers) (call : Spoken) : Style → Key
  | .openaiChat => .number (.finite call.index)
  | .anthropicMessages => .string (text "block:" ++ encode (ns.stringify call.index))
  | .openaiResponses => .string (text "out:" ++ encode (ns.stringify call.index))

def entryAfter (moves : List Move) (call : Spoken) : Entry :=
  { id := if call.id = [] then none else some call.id, name := some call.name, argumentText := said call moves }

/-- The calls that have been opened are held in their order, each with what has been said of it. -/
def Holds (ns : Numbers) (style : Style) (moves : List Move) (state : State) : Prop :=
  state.entries = (moves.filterMap Move.opened).map fun call ↦ (keyFor ns call style, entryAfter moves call)

section

variable {ns : Numbers} {style : Style} {calls : List Spoken} {done later : List Move} {call other : Spoken}
  {piece : Units} {state : State} {v : Option JsValue} {entry : Entry}

theorem said_append (call : Spoken) (moves more : List Move) : said call (moves ++ more) = said call moves ++ said call more :=
  List.flatMap_append

variable {move : Move}

theorem said_other (h : move.call ≠ call) : said call (done ++ [move]) = said call done := by
  rw [said_append, said, said, List.flatMap_singleton, if_neg h, List.append_nil]

theorem said_same (h : move.call = call) : said call (done ++ [move]) = said call done ++ move.piece := by
  rw [said_append, said, said, List.flatMap_singleton, if_pos h]

theorem appendArguments_spells (hpiece : Spells v piece) (hlength : (entry.argumentText ++ piece).length ≤ maxArgumentChars) :
    appendArguments entry v = { entry with argumentText := entry.argumentText ++ piece } := by
  rw [List.length_append] at hlength
  rcases hpiece with rfl | ⟨rfl, hnone⟩
  · rw [appendArguments]
    split
    next hempty => rw [hempty, List.append_nil]
    next => rw [if_neg (by omega)]
  · rw [List.append_nil]
    unfold appendArguments
    split
    next us => exact absurd rfl (hnone us)
    next => rfl

structure Next (ns : Numbers) (calls : List Spoken) (done : List Move) (move : Move) (later : List Move) : Prop
    extends Speakable ns calls where
  moves : Interleaves calls (done ++ move :: later)

theorem index_injective (hdistinct : (calls.map Spoken.index).Nodup) (hcall : call ∈ calls) (hother : other ∈ calls)
    (h : call.index = other.index) : call = other :=
  List.inj_on_of_nodup_map hdistinct hcall hother h

theorem stringify_injective {x y : Binary64} (hx : Legible ns (.finite x)) (hy : Legible ns (.finite y))
    (h : ns.stringify x = ns.stringify y) : x = y := by
  have hread := hx.inverted x rfl
  rw [h, hy.inverted y rfl] at hread
  cases hread
  rfl

theorem keyFor_injective (hdistinct : (calls.map Spoken.index).Nodup) (hlegible : ∀ call ∈ calls, Legible ns (.finite call.index))
    (hcall : call ∈ calls) (hother : other ∈ calls) (h : keyFor ns call style = keyFor ns other style) : call = other := by
  have htext (label : Units) (h : label ++ encode (ns.stringify call.index) = label ++ encode (ns.stringify other.index)) :
      call.index = other.index :=
    stringify_injective (hlegible call hcall) (hlegible other hother) (encode_injective (List.append_cancel_left h))
  apply index_injective hdistinct hcall hother
  cases style with
  | openaiChat => exact (Leaf.finite.inj (Key.number.inj h))
  | anthropicMessages | openaiResponses => exact htext _ (Key.string.inj h)

section

variable (h : Next ns calls done move later)

include h

theorem Next.opened_sub : ∀ call ∈ done.filterMap Move.opened, call ∈ calls := by
  intro call hcall
  rw [← h.moves.opened, List.filterMap_append]
  exact List.mem_append_left _ hcall

theorem Next.opened_nodup : (done.filterMap Move.opened).Nodup := by
  have hnodup := List.Nodup.of_map _ h.distinct
  rw [← h.moves.opened, List.filterMap_append] at hnodup
  exact (List.nodup_append.mp hnodup).1

theorem Next.call_mem : move.call ∈ calls := by
  cases move with
  | opens call piece =>
    rw [← h.moves.opened]
    exact List.mem_filterMap.mpr ⟨.opens call piece, by simp, rfl⟩
  | adds call piece => exact h.opened_sub call (h.moves.after done call piece later rfl)

theorem Next.said_nil (hcall : call ∉ done.filterMap Move.opened) : said call done = [] := by
  rw [said, List.flatMap_eq_nil_iff]
  intro made hmade
  rw [if_neg]
  rintro rfl
  apply hcall
  cases made with
  | opens => exact List.mem_filterMap.mpr ⟨_, hmade, rfl⟩
  | adds call piece =>
    obtain ⟨before, between, rfl⟩ := List.append_of_mem hmade
    have hopened := h.moves.after before call piece (between ++ move :: later) (by simp)
    rw [List.filterMap_append]
    exact List.mem_append_left _ hopened

theorem Next.length_said : (said move.call (done ++ [move])).length ≤ maxArgumentChars := by
  have hwhole := h.moves.whole move.call h.call_mem
  rw [← List.singleton_append, ← List.append_assoc, said_append] at hwhole
  have hlength := h.short move.call h.call_mem
  rw [← hwhole, List.length_append] at hlength
  omega

end

end

section

variable {κ ν α : Type} [DecidableEq κ] [DecidableEq α] {k : κ} {es : List (κ × ν)}

omit [DecidableEq α] in
theorem entries_set (m : InsertionMap κ ν) (k : κ) (v : ν) : (m.set k v).entries = InsertionMap.put k v m.entries := rfl

omit [DecidableEq α] in
theorem put_fresh (h : k ∉ es.map Prod.fst) (v : ν) : InsertionMap.put k v es = es ++ [(k, v)] := by
  induction es with
  | nil => rfl
  | cons e es ih =>
    obtain ⟨j, w⟩ := e
    rw [List.map_cons, List.mem_cons, not_or] at h
    rw [InsertionMap.put, if_neg (Ne.symm h.1), ih h.2, List.cons_append]

theorem put_map {items : List α} {key : α → κ} {f : α → ν} {a : α} (hnodup : items.Nodup) (ha : a ∈ items)
    (hkey : ∀ b ∈ items, key b = key a → b = a) (v : ν) :
    InsertionMap.put (key a) v (items.map fun b ↦ (key b, f b)) = items.map fun b ↦ (key b, if b = a then v else f b) := by
  induction items with
  | nil => cases ha
  | cons b items ih =>
    obtain ⟨hb, hitems⟩ := List.nodup_cons.mp hnodup
    rw [List.map_cons, List.map_cons, InsertionMap.put]
    rcases List.mem_cons.mp ha with rfl | ha
    · have hrest : ∀ c ∈ items, (key c, if c = a then v else f c) = (key c, f c) := by
        intro c hc
        rw [if_neg (ne_of_mem_of_not_mem hc hb)]
      rw [if_pos rfl, if_pos rfl, List.map_congr_left hrest]
    · have hne : b ≠ a := fun h ↦ hb (h ▸ ha)
      rw [if_neg fun h ↦ hne (hkey b List.mem_cons_self h), if_neg hne,
        ih hitems ha fun c hc ↦ hkey c (List.mem_cons_of_mem b hc)]

end

section

variable {ns : Numbers} {style : Style} {calls : List Spoken} {done later : List Move} {call : Spoken} {piece : Units}
  {state : State} {v : Option JsValue}

theorem Holds.keys (h : Holds ns style done state) :
    state.entries.map Prod.fst = (done.filterMap Move.opened).map fun call ↦ keyFor ns call style := by
  rw [h, List.map_map]
  rfl

theorem Holds.opens (hstate : Holds ns style done state) (hnext : Next ns calls done (.opens call piece) later)
    (hpiece : Spells v piece) : slot state (keyFor ns call style) = some {} ∧
      Holds ns style (done ++ [.opens call piece]) (state.set (keyFor ns call style)
        (appendArguments { id := if call.id = [] then none else some call.id, name := some call.name } v)) := by
  have hsplit := hnext.moves.opened
  rw [List.filterMap_append, List.filterMap_cons_some (show Move.opened (.opens call piece) = some call from rfl)] at hsplit
  have hfresh : call ∉ done.filterMap Move.opened := by
    have hnodup := List.Nodup.of_map _ hnext.distinct
    rw [← hsplit] at hnodup
    exact fun hmem ↦ (List.nodup_append.mp hnodup).2.2 call hmem call List.mem_cons_self rfl
  have hkey : keyFor ns call style ∉ state.entries.map Prod.fst := by
    rw [hstate.keys]
    intro hmem
    obtain ⟨other, hother, hsame⟩ := List.mem_map.mp hmem
    have heq : other = call :=
      keyFor_injective hnext.distinct hnext.legible (hnext.opened_sub other hother) hnext.call_mem hsame
    exact hfresh (heq ▸ hother)
  have hnone : state.get (keyFor ns call style) = none := by
    cases hget : state.get (keyFor ns call style) with
    | none => rfl
    | some => exact absurd (List.mem_map_of_mem (InsertionMap.mem_entries hget)) hkey
  have hroom : ¬maxCalls ≤ state.entries.length := by
    have hlength := congrArg List.length hsplit
    rw [List.length_append, List.length_cons] at hlength
    rw [hstate, List.length_map]
    have hfew := hnext.few
    omega
  have hsaid : said call (done ++ [.opens call piece]) = [] ++ piece := by
    rw [← hnext.said_nil hfresh]
    exact said_same rfl
  have hlength := hnext.length_said
  rw [show (Move.opens call piece).call = call from rfl, hsaid] at hlength
  refine ⟨by rw [slot, hnone]; exact if_neg hroom, ?_⟩
  have hopened : (done ++ [Move.opens call piece]).filterMap Move.opened = done.filterMap Move.opened ++ [call] := by
    rw [List.filterMap_append]
    rfl
  have hothers : ∀ other ∈ done.filterMap Move.opened, (keyFor ns other style, entryAfter (done ++ [.opens call piece]) other) =
      (keyFor ns other style, entryAfter done other) := by
    intro other hother
    have hne : (Move.opens call piece).call ≠ other := (ne_of_mem_of_not_mem hother hfresh).symm
    rw [entryAfter, entryAfter, said_other hne]
  rw [Holds, entries_set, put_fresh hkey, appendArguments_spells hpiece hlength, hstate, hopened, List.map_append,
    List.map_congr_left hothers, List.map_singleton, entryAfter, hsaid]

theorem Holds.adds (hstate : Holds ns style done state) (hnext : Next ns calls done (.adds call piece) later)
    (hpiece : Spells v piece) : state.get (keyFor ns call style) = some (entryAfter done call) ∧
      Holds ns style (done ++ [.adds call piece])
        (state.set (keyFor ns call style) (appendArguments (entryAfter done call) v)) := by
  have hopened : call ∈ done.filterMap Move.opened := hnext.moves.after done call piece later rfl
  have hmem : (keyFor ns call style, entryAfter done call) ∈ state.entries := by
    rw [hstate]
    exact List.mem_map.mpr ⟨call, hopened, rfl⟩
  have hsaid : said call (done ++ [.adds call piece]) = said call done ++ piece := said_same rfl
  have hlength := hnext.length_said
  rw [show (Move.adds call piece).call = call from rfl, hsaid] at hlength
  have hopens : (done ++ [Move.adds call piece]).filterMap Move.opened = done.filterMap Move.opened := by
    rw [List.filterMap_append]
    exact List.append_nil _
  have hkeys : ∀ other ∈ done.filterMap Move.opened, keyFor ns other style = keyFor ns call style → other = call :=
    fun other hother ↦ keyFor_injective hnext.distinct hnext.legible (hnext.opened_sub other hother) hnext.call_mem
  refine ⟨InsertionMap.get_of_mem hmem, ?_⟩
  rw [Holds, entries_set, hstate, put_map hnext.opened_nodup hopened hkeys, hopens]
  apply List.map_congr_left
  intro other _
  split
  next heq => rw [heq, appendArguments_spells hpiece hlength, entryAfter, entryAfter, hsaid]
  next hne =>
    have hother : (Move.adds call piece).call ≠ other := Ne.symm hne
    rw [entryAfter, entryAfter, said_other hother]

theorem textOr_string (held : Option Units) (us : Units) :
    textOr ns held (some (.string us)) = .ok (if us = [] then held else some us) := by
  rw [textOr, truthy]
  by_cases h : us = []
  · rw [if_pos h, if_neg (by simpa using h)]
  · rw [if_neg h, if_pos (by simpa using h)]
    rfl

theorem textOr_false (held : Option Units) (h : truthy v = false) : textOr ns held v = .ok held := by
  cases v with
  | none => rfl
  | some => exact if_neg (Bool.eq_false_iff.mp h)

theorem observeFragment_makes {fragment : JsValue} {move : Move} (hstate : Holds ns .openaiChat done state)
    (hnext : Next ns calls done move later) (h : Makes fragment move) :
    ∃ state', observeFragment ns fragment state = .ok (some state') ∧ Holds ns .openaiChat (done ++ [move]) state' := by
  obtain ⟨hindex, hpiece, hmove⟩ := h
  have hkey : Key.of state (orZero (property "index" fragment)) = keyFor ns move.call .openaiChat := by
    rw [hindex]
    rfl
  have hnull : ¬isNull fragment := by
    intro hnull
    cases fragment with
    | null => cases hindex
    | _ => cases hnull
  cases move with
  | opens call =>
    obtain ⟨hid, hname⟩ := hmove
    obtain ⟨hslot, hholds⟩ := hstate.opens hnext hpiece
    refine ⟨_, ?_, hholds⟩
    have hnamed : call.name ≠ [] := hnext.named call hnext.call_mem
    rw [observeFragment, hkey, Move.call, hslot]
    simp only [hid, hname, heldOr, textOr_string, require_ok.mpr hnull, bind, Except.bind, true_or, if_true, if_neg hnamed]
    rfl
  | adds call =>
    obtain ⟨hid, hname⟩ := hmove
    obtain ⟨hget, hholds⟩ := hstate.adds hnext hpiece
    refine ⟨_, ?_, hholds⟩
    have hslot : slot state (keyFor ns call .openaiChat) = some (entryAfter done call) := by rw [slot, hget]
    have hheld (held : Option Units) {v : Option JsValue} (hv : truthy v = false) : heldOr ns held v = .ok held := by
      rw [heldOr, textOr_false held hv, ite_self]
    rw [observeFragment, hkey, Move.call, hslot]
    simp only [hheld _ hid, hheld _ hname, require_ok.mpr hnull, bind, Except.bind]
    rfl

theorem numbered_index {label : String} {index : Option JsValue} (h : Numbered call index) :
    numbered ns label index = .ok (.string (text label ++ encode (ns.stringify call.index))) := by
  rw [h]
  rfl

theorem observeFragments_makes {fragments : List JsValue} {moves : List Move} (hspeakable : Speakable ns calls)
    (hstate : Holds ns .openaiChat done state) (hmoves : Interleaves calls (done ++ (moves ++ later)))
    (h : List.Forall₂ Makes fragments moves) :
    ∃ state', observeFragments ns fragments state = .ok state' ∧ Holds ns .openaiChat (done ++ moves) state' := by
  induction h generalizing done state with
  | nil => exact ⟨state, rfl, by rwa [List.append_nil]⟩
  | @cons fragment move fragments moves hmake _ ih =>
    obtain ⟨state', hobserve, hstate'⟩ := observeFragment_makes hstate ⟨hspeakable, hmoves⟩ hmake
    rw [List.cons_append, List.append_cons] at hmoves
    rw [List.append_cons]
    obtain ⟨state'', hrest, hstate''⟩ := ih hstate' hmoves
    refine ⟨state'', ?_, hstate''⟩
    simp only [observeFragments, hobserve, bind, Except.bind]
    exact hrest

variable {name : String} {event : JsValue}

theorem isObject_of_property {w : JsValue} (h : property name event = some w) : isObject event := by
  cases event with
  | object => rfl
  | _ => cases h

theorem isObject_of_type (h : isType name (some event)) : isObject event := by
  rw [isType, Option.bind_some] at h
  split at h
  next s hs => exact isObject_of_property hs
  next => cases h

theorem isType_other {other : String} (h : isType name v) (hne : name ≠ other) :
    isType other v = false := by
  unfold isType at h ⊢
  split at h
  next s hs =>
    rw [of_decide_eq_true h]
    exact decide_eq_false fun heq ↦ hne (String.toList_inj.mp (encode_injective heq))
  next => cases h

theorem isObject_of_fragments {w : JsValue} (h : fragmentsOf event = some w) : isObject event := by
  obtain ⟨_, h, -⟩ := Option.bind_eq_some_iff.mp h
  obtain ⟨_, h, -⟩ := Option.bind_eq_some_iff.mp h
  obtain ⟨_, h, -⟩ := Option.bind_eq_some_iff.mp h
  exact isObject_of_property h

theorem goOn_foreign {label : String} {index : Option JsValue} {moves : List Move} (hspeakable : Speakable ns calls)
    (hlabel : ∀ call, keyFor ns call style = .string (text label ++ encode (ns.stringify call.index)))
    (hstate : Holds ns style done state) (hmoves : Interleaves calls (done ++ moves)) (h : Foreign ns calls index) :
    ∃ key, numbered ns label index = .ok key ∧ ∀ v, goOn state key v = state := by
  obtain ⟨x, rfl, hx, hother⟩ := h
  refine ⟨.string (text label ++ encode (ns.stringify x)), rfl, fun v ↦ ?_⟩
  cases hget : state.get (.string (text label ++ encode (ns.stringify x))) with
  | none => rw [goOn, hget]
  | some =>
    have hkey := List.mem_map_of_mem (f := Prod.fst) (InsertionMap.mem_entries hget)
    rw [hstate.keys] at hkey
    obtain ⟨call, hcall, hsame⟩ := List.mem_map.mp hkey
    have hmem : call ∈ calls := by
      rw [← hmoves.opened, List.filterMap_append]
      exact List.mem_append_left _ hcall
    rw [hlabel call] at hsame
    have htext := encode_injective (List.append_cancel_left (Key.string.inj hsame))
    exact absurd (stringify_injective (hspeakable.legible call hmem) hx htext) (hother call hmem)

theorem observe_carries {moves : List Move} (hspeakable : Speakable ns calls) (hstate : Holds ns style done state)
    (hmoves : Interleaves calls (done ++ (moves ++ later))) (h : Carries ns calls style event moves) :
    ∃ state', observeToolCallFrame ns style event state = .ok state' ∧ Holds ns style (done ++ moves) state' := by
  cases h with
  | fragments hfragments hmakes =>
    obtain ⟨state', hobserve, hstate'⟩ := observeFragments_makes hspeakable hstate hmoves hmakes
    refine ⟨state', ?_, hstate'⟩
    rw [observeToolCallFrame, if_pos (isObject_of_fragments hfragments)]
    simp only [hfragments]
    exact hobserve
  | prose h =>
    refine ⟨state, ?_, by rwa [List.append_nil]⟩
    rw [observeToolCallFrame]
    split
    · split
      next fragments hfragments => exact absurd hfragments (h fragments)
      next => rfl
    · rfl
  | @block _ block call htype hblock huse hindex hid hname =>
    obtain ⟨hslot, hholds⟩ := hstate.opens ⟨hspeakable, hmoves⟩ (.inr ⟨rfl, nofun⟩ : Spells none [])
    refine ⟨_, ?_, hholds⟩
    have hnamed : call.name ≠ [] := hspeakable.named call (Next.call_mem ⟨hspeakable, hmoves⟩)
    have hblockId : (property "content_block" event).bind (property "id") = some (.string call.id) := by rw [hblock]; exact hid
    have hblockName : (property "content_block" event).bind (property "name") = some (.string call.name) := by
      rw [hblock]; exact hname
    rw [keyFor] at hslot
    rw [observeToolCallFrame, if_pos (isObject_of_type htype), observeBlock, if_pos ⟨htype, by rwa [hblock]⟩]
    simp only [numbered_index hindex, hslot, hblockId, hblockName, textOr_string, if_neg hnamed, bind, Except.bind]
    rfl
  | @blockDelta _ call piece htype hdelta hindex hpiece =>
    obtain ⟨hget, hholds⟩ := hstate.adds ⟨hspeakable, hmoves⟩ hpiece
    refine ⟨_, ?_, hholds⟩
    rw [keyFor] at hget
    rw [observeToolCallFrame, if_pos (isObject_of_type htype), observeBlock, isType_other htype (by decide : _ ≠ "content_block_start"), if_neg (by simp), if_pos ⟨htype, hdelta⟩]
    simp only [numbered_index hindex, goOn, hget, bind, Except.bind]
    rfl
  | otherBlock hstart hdelta =>
    refine ⟨state, ?_, by rwa [List.append_nil]⟩
    rw [observeToolCallFrame]
    split
    · rw [observeBlock, if_neg hstart]
      split
      next htype =>
        obtain ⟨key, hkey, hgoOn⟩ := goOn_foreign hspeakable (fun _ ↦ rfl) hstate hmoves (hdelta htype.1 htype.2)
        simp only [hkey, hgoOn, bind, Except.bind]
        rfl
      next => rfl
    · rfl
  | @item _ item call piece htype hitem hcall hindex hid hother hname hpiece =>
    have harguments : Spells ((property "item" event).bind (property "arguments")) piece := by rw [hitem]; exact hpiece
    obtain ⟨hslot, hholds⟩ := hstate.opens ⟨hspeakable, hmoves⟩ harguments
    refine ⟨_, ?_, hholds⟩
    have hnamed : call.name ≠ [] := hspeakable.named call (Next.call_mem ⟨hspeakable, hmoves⟩)
    have hcallId : (property "item" event).bind (property "call_id") = some (.string call.id) := by rw [hitem]; exact hid
    have hitemName : (property "item" event).bind (property "name") = some (.string call.name) := by
      rw [hitem]; exact hname
    have hchosen : textOr ns none (if truthy (some (.string call.id)) then some (.string call.id)
        else (property "item" event).bind (property "id")) = .ok (if call.id = [] then none else some call.id) := by
      by_cases hempty : call.id = []
      · rw [hempty, if_pos rfl, if_neg (by simp [truthy]), hitem]
        exact textOr_false none (hother hempty)
      · rw [if_pos (by simpa [truthy] using hempty), textOr_string]
    rw [keyFor] at hslot
    rw [observeToolCallFrame, if_pos (isObject_of_type htype), observeItem, if_pos ⟨htype, by rwa [hitem]⟩]
    simp only [numbered_index hindex, hslot, hcallId, hitemName, hchosen, textOr_string, if_neg hnamed, bind, Except.bind]
    rfl
  | @itemDelta _ call piece htype hindex hpiece =>
    obtain ⟨hget, hholds⟩ := hstate.adds ⟨hspeakable, hmoves⟩ hpiece
    refine ⟨_, ?_, hholds⟩
    rw [keyFor] at hget
    rw [observeToolCallFrame, if_pos (isObject_of_type htype), observeItem, isType_other htype (by decide : _ ≠ "response.output_item.added"), if_neg (by simp), if_pos htype]
    simp only [numbered_index hindex, goOn, hget, bind, Except.bind]
    rfl
  | otherItem hadded hdelta =>
    refine ⟨state, ?_, by rwa [List.append_nil]⟩
    rw [observeToolCallFrame]
    split
    · rw [observeItem, if_neg hadded]
      split
      next htype =>
        obtain ⟨key, hkey, hgoOn⟩ := goOn_foreign hspeakable (fun _ ↦ rfl) hstate hmoves (hdelta htype)
        simp only [hkey, hgoOn, bind, Except.bind]
        rfl
      next => rfl
    · rfl

theorem observe_all {events : List JsValue} {moves : List (List Move)} (hspeakable : Speakable ns calls)
    (hstate : Holds ns style done state) (hmoves : Interleaves calls (done ++ moves.flatten))
    (h : List.Forall₂ (Carries ns calls style) events moves) :
    ∃ state', events.foldlM (fun state event ↦ observeToolCallFrame ns style event state) state = .ok state' ∧
      Holds ns style (done ++ moves.flatten) state' := by
  induction h generalizing done state with
  | nil => exact ⟨state, rfl, by rwa [List.flatten_nil, List.append_nil]⟩
  | @cons event made events moves hcarries _ ih =>
    rw [List.flatten_cons] at hmoves ⊢
    obtain ⟨state', hobserve, hstate'⟩ := observe_carries hspeakable hstate hmoves hcarries
    rw [← List.append_assoc] at hmoves ⊢
    obtain ⟨state'', hrest, hstate''⟩ := ih hstate' hmoves
    refine ⟨state'', ?_, hstate''⟩
    rw [List.foldlM_cons, hobserve]
    exact hrest

end

/-- What is answered for a call: its identity, or its place where it has none, its name, and the object that its text
is without the white space around it, or that it is none. -/
structure Answers (ns : Numbers) (place : ℕ) (call : Spoken) (answer : Call) : Prop where
  id : answer.id = if call.id = [] then idFor place else call.id
  name : answer.name = some call.name
  blank : Author.trim call.argumentText = [] → answer.arguments = some (.object []) ∧ answer.defect = none
  object : ∀ members, parseUnits ns (Author.trim call.argumentText) = some (.object members) →
    answer.arguments = some (.object members) ∧ answer.defect = none
  malformed : Author.trim call.argumentText ≠ [] →
    (∀ members, parseUnits ns (Author.trim call.argumentText) ≠ some (.object members)) →
    answer.arguments = none ∧ answer.defect = some .malformedArguments

section

variable {ns : Numbers} {style : Style} {calls : List Spoken} {events : List JsValue} {moves : List Move} {call : Spoken}

theorem finishCall_answers (hname : call.name ≠ []) (hwhole : said call moves = call.argumentText) (place : ℕ) :
    Answers ns place call (finishCall ns place (entryAfter moves call)) := by
  have hid : (entryAfter moves call).id.getD (idFor place) = if call.id = [] then idFor place else call.id := by
    rw [entryAfter]
    split <;> rfl
  have htext : (entryAfter moves call).argumentText = call.argumentText := hwhole
  have hsome : (entryAfter moves call).name = some call.name := rfl
  have hwithin : ¬(entryAfter moves call).truncated := Bool.false_ne_true
  rw [finishCall, hid, htext, hsome]
  split
  next h => cases h
  next h => exact absurd (Option.some.inj h) hname
  next name _ h =>
    cases h
    rw [if_neg hwithin]
    by_cases hblank : Author.trim call.argumentText = []
    · simp only [hblank, if_true]
      refine ⟨rfl, rfl, fun _ ↦ ⟨rfl, rfl⟩, fun members h ↦ ?_, fun h ↦ absurd hblank h⟩
      rw [hblank] at h
      cases h
    · simp only [hblank, if_false]
      split
      next members hparsed =>
        refine ⟨rfl, rfl, fun h ↦ absurd h hblank, fun other hother ↦ ?_, fun _ h ↦ absurd hparsed (h members)⟩
        rw [hparsed] at hother
        cases hother
        exact ⟨rfl, rfl⟩
      next hnone =>
        exact ⟨rfl, rfl, fun h ↦ absurd h hblank, fun members h ↦ absurd h (hnone members), fun _ _ ↦ ⟨rfl, rfl⟩⟩

/-- Calls are put together from their fragments as they were made, however the fragments are cut and interleaved. -/
theorem calls_reassembled (h : Streamed ns style calls events) : ∃ answers, reassemble ns style events = .ok answers ∧
    List.Forall₂ (fun call answer ↦ Answers ns call.2 call.1 answer) calls.zipIdx answers := by
  obtain ⟨moves, hcarried, hmoves⟩ := h.carried
  have hstart : Holds ns style [] newToolCallState := rfl
  obtain ⟨state, hobserve, hstate⟩ := observe_all h.toSpeakable hstart hmoves hcarried
  refine ⟨finishToolCalls ns state, by rw [reassemble, hobserve]; rfl, ?_⟩
  rw [List.nil_append] at hstate
  rw [finishToolCalls, hstate, hmoves.opened, List.mapIdx_eq_zipIdx_map, List.zipIdx_map, List.forall₂_map_right_iff,
    List.forall₂_map_right_iff, List.forall₂_same]
  rintro ⟨call, place⟩ hcall
  have hmem : call ∈ calls := List.fst_mem_of_mem_zipIdx hcall
  exact finishCall_answers (h.named call hmem) (hmoves.whole call hmem) place

end

section Sample

def fragmentOf : Move → JsValue
  | .opens call piece => .object [(text "index", .number (.finite call.index)), (text "id", .string call.id),
      (text "function", .object [(text "name", .string call.name), (text "arguments", .string piece)])]
  | .adds call piece => .object [(text "index", .number (.finite call.index)),
      (text "function", .object [(text "arguments", .string piece)])]

def frameOf (moves : List Move) : JsValue :=
  .object [(text "choices", .array [.object [(text "delta", .object [(text "tool_calls", .array (moves.map fragmentOf))])]])]

theorem frameOf_carries (ns : Numbers) (calls : List Spoken) (moves : List Move) :
    Carries ns calls .openaiChat (frameOf moves) moves := by
  have hfragments : fragmentsOf (frameOf moves) = some (.array (moves.map fragmentOf)) := rfl
  refine .fragments hfragments ?_
  rw [List.forall₂_map_left_iff, List.forall₂_same]
  intro move _
  cases move with
  | opens | adds => exact ⟨rfl, .inl rfl, rfl, rfl⟩

def read : Spoken := ⟨zero, text "a", text "read", text "\x7b\"deep\":true\x7d"⟩

def nameless : Spoken := ⟨zero, [], text "list", text "\x7b\x7d"⟩

/-- A call whose text is an object with a white space before it that is none in JSON. -/
def spaced : Spoken := ⟨one, text "b", text "list", text "\u00A0\x7b\x7d"⟩

theorem speakable_pair {first second : Spoken} (hzero : first.index = zero) (hone : second.index = one)
    (hnamed : first.name ≠ [] ∧ second.name ≠ [])
    (hshort : first.argumentText.length ≤ maxArgumentChars ∧ second.argumentText.length ≤ maxArgumentChars) :
    Speakable zeroAndOne [first, second] where
  few := by
    rw [maxCalls]
    exact Nat.le_of_ble_eq_true rfl
  distinct := by
    rw [List.map_cons, List.map_singleton, hzero, hone]
    decide
  legible := by
    rw [List.forall_mem_cons, List.forall_mem_singleton, hzero, hone]
    exact ⟨legible_zeroAndOne (.inl rfl), legible_zeroAndOne (.inr rfl)⟩
  named := List.forall_mem_cons.mpr ⟨hnamed.1, List.forall_mem_singleton.mpr hnamed.2⟩
  short := by
    rw [List.forall_mem_cons, List.forall_mem_singleton]
    exact hshort

def interleaved : List (List Move) :=
  [[.opens read (text "\x7b\"de"), .opens spaced (text "\u00A0")], [], [.adds spaced (text "\x7b\x7d"), .adds read (text "ep\":true\x7d")]]

theorem calls_reassembled_interleaved :
    Streamed zeroAndOne .openaiChat [read, spaced] (interleaved.map frameOf) ∧
      ∃ answers, reassemble zeroAndOne .openaiChat (interleaved.map frameOf) = .ok answers ∧
        List.Forall₂ (fun call answer ↦ Answers zeroAndOne call.2 call.1 answer) [(read, 0), (spaced, 1)] answers := by
  have hstreamed : Streamed zeroAndOne .openaiChat [read, spaced] (interleaved.map frameOf) := by
    refine ⟨speakable_pair rfl rfl (by decide) (by decide), interleaved, ?_, by decide, ?_, by decide⟩
    · rw [List.forall₂_map_left_iff, List.forall₂_same]
      exact fun moves _ ↦ frameOf_carries _ _ moves
    · intro before call piece later h
      rcases before with _ | ⟨_, _ | ⟨_, _ | ⟨_, _ | ⟨_, before⟩⟩⟩⟩ <;> simp [interleaved] at h
      · obtain ⟨rfl, rfl, ⟨rfl, rfl⟩, rfl⟩ := h
        decide
      · obtain ⟨rfl, rfl, rfl, ⟨rfl, rfl⟩, rfl⟩ := h
        decide
  exact ⟨hstreamed, calls_reassembled hstreamed⟩

theorem calls_reassembled_not_verbatim :
    Streamed zeroAndOne .openaiChat [nameless, spaced] [frameOf [.opens nameless (text "\x7b\x7d"), .opens spaced (text "\u00A0\x7b\x7d")]] ∧
      reassemble zeroAndOne .openaiChat [frameOf [.opens nameless (text "\x7b\x7d"), .opens spaced (text "\u00A0\x7b\x7d")]] =
        .ok [⟨text "call_0", some (text "list"), some (.object []), none, text "\x7b\x7d"⟩,
          ⟨text "b", some (text "list"), some (.object []), none, text "\x7b\x7d"⟩] ∧
      nameless.id ≠ text "call_0" ∧ parseUnits zeroAndOne spaced.argumentText = none := by
  refine ⟨⟨speakable_pair rfl rfl (by decide) (by decide), [_], .cons (frameOf_carries _ _ _) .nil, by decide, ?_, by decide⟩,
    by rfl, by decide, by decide +kernel⟩
  intro before call piece later h
  rcases before with _ | ⟨_, _ | ⟨_, before⟩⟩ <;> simp at h

end Sample

end Noesar.Streams.ToolCalls
