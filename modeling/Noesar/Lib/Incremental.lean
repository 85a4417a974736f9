import Mathlib

namespace Noesar.Lib.Incremental

variable {β σ α ε : Type}

/-- What a look at what has come in shows: that more is needed, that it is refused, or what is left of it when the
first of it has been taken, which may complete a value. -/
inductive Look (β σ α ε : Type)
  | short
  | refused (e : ε)
  | taken (s : σ) (left : List β) (value : Option α)

/-- What is taken or refused is so whatever comes after it. -/
structure Steady (look : σ → List β → Look β σ α ε) : Prop where
  empty : ∀ s, look s [] = .short
  refused : ∀ {s bs e}, look s bs = .refused e → ∀ more, look s (bs ++ more) = .refused e
  taken : ∀ {s bs s' left v}, look s bs = .taken s' left v →
    ∃ used, used ≠ [] ∧ bs = used ++ left ∧ ∀ more, look s (used ++ more) = .taken s' more v

section

variable (look : σ → List β → Look β σ α ε)

def drain : ℕ → σ → List β → List α × Except ε (σ × List β)
  | 0, s, bs => ([], .ok (s, bs))
  | fuel + 1, s, bs =>
    match look s bs with
    | .short => ([], .ok (s, bs))
    | .refused e => ([], .error e)
    | .taken s' left v => (v.toList ++ (drain fuel s' left).1, (drain fuel s' left).2)

def drained (s : σ) (bs : List β) : List α × Except ε (σ × List β) := drain look (bs.length + 1) s bs

/-- One more chunk is read. Where something is refused, the values that it completed are lost. -/
def push (r : σ × List β) (chunk : List β) : Except ε ((σ × List β) × List α) :=
  match drained look r.1 (r.2 ++ chunk) with
  | (values, .ok r') => .ok (r', values)
  | (_, .error e) => .error e

def feed : σ × List β → List (List β) → List α × Except ε (σ × List β)
  | r, [] => ([], .ok r)
  | r, chunk :: chunks =>
    match push look r chunk with
    | .ok (r', values) => (values ++ (feed r' chunks).1, (feed r' chunks).2)
    | .error e => ([], .error e)

/-- What is taken of a stream, one thing after another. -/
inductive Reads : σ → List β → List α → σ → List β → Prop
  | nil (s : σ) (bs : List β) : Reads s bs [] s bs
  | cons {s s' s'' : σ} {bs left left' : List β} {v : Option α} {values : List α} (h : look s bs = .taken s' left v)
      (hrest : Reads s' left values s'' left') : Reads s bs (v.toList ++ values) s'' left'

def Spoiled (s : σ) (bs : List β) : Prop :=
  ∃ values s' left e, Reads look s bs values s' left ∧ look s' left = .refused e ∧ values ≠ []

end

variable {look : σ → List β → Look β σ α ε} {s s' : σ} {bs left : List β} {e : ε} {v : Option α} {values : List α}

theorem Steady.shorter (hlook : Steady look) (h : look s bs = .taken s' left v) : left.length < bs.length := by
  obtain ⟨used, hused, rfl, -⟩ := hlook.taken h
  have hpos := List.length_pos_iff.mpr hused
  rw [List.length_append]
  omega

theorem Steady.append (hlook : Steady look) (h : look s bs = .taken s' left v) (more : List β) :
    look s (bs ++ more) = .taken s' (left ++ more) v := by
  obtain ⟨used, -, rfl, hused⟩ := hlook.taken h
  rw [List.append_assoc, hused]

theorem Steady.exact (hlook : Steady look) (hshort : look s bs = .short) {b : β}
    (h : look s (bs ++ [b]) = .taken s' left v) : left = [] := by
  obtain ⟨used, -, hsplit, hused⟩ := hlook.taken h
  rcases List.eq_nil_or_concat left with hnil | ⟨left', b', rfl⟩
  · exact hnil
  · rw [List.concat_eq_append, ← List.append_assoc] at hsplit
    have hbs := (List.append_inj' hsplit rfl).1
    rw [hbs, hused] at hshort
    cases hshort

theorem Steady.cut (hlook : Steady look) {front back : List β} (h : look s (front ++ back) = .taken s' [] v)
    (hback : back ≠ []) : look s front = .short := by
  cases hfront : look s front with
  | short => rfl
  | refused =>
    rw [hlook.refused hfront back] at h
    cases h
  | taken =>
    rw [hlook.append hfront back] at h
    cases List.append_eq_nil_iff.mp (Look.taken.inj h).2.1 |>.2
    exact absurd rfl hback

theorem drain_of_lt (hlook : Steady look) {fuel fuel' : ℕ} (h : bs.length < fuel) (h' : bs.length < fuel') :
    drain look fuel s bs = drain look fuel' s bs := by
  induction fuel generalizing fuel' s bs with
  | zero => omega
  | succ fuel ih =>
    obtain ⟨fuel', rfl⟩ := Nat.exists_eq_succ_of_ne_zero (by omega : fuel' ≠ 0)
    rw [drain, drain]
    cases hs : look s bs with
    | short => rfl
    | refused => rfl
    | taken s' left =>
      have hshorter := hlook.shorter hs
      dsimp only
      rw [@ih s' left fuel' (by omega) (by omega)]

theorem drained_short (h : look s bs = .short) : drained look s bs = ([], .ok (s, bs)) := by
  rw [drained, drain, h]

theorem drained_refused (h : look s bs = .refused e) : drained look s bs = ([], .error e) := by
  rw [drained, drain, h]

theorem drained_taken (hlook : Steady look) (h : look s bs = .taken s' left v) :
    drained look s bs = (v.toList ++ (drained look s' left).1, (drained look s' left).2) := by
  have hshorter := hlook.shorter h
  rw [drained, drain, h]
  dsimp only
  rw [drain_of_lt hlook hshorter (Nat.lt_succ_self left.length)]
  rfl

theorem drained_induction (hlook : Steady look) {P : σ → List β → Prop} (hshort : ∀ s bs, look s bs = .short → P s bs)
    (hrefused : ∀ s bs e, look s bs = .refused e → P s bs)
    (htaken : ∀ s bs s' left v, look s bs = .taken s' left v → P s' left → P s bs) (s : σ) (bs : List β) : P s bs := by
  induction hn : bs.length using Nat.strongRecOn generalizing s bs with
  | ind n ih =>
    cases hs : look s bs with
    | short => exact hshort s bs hs
    | refused e => exact hrefused s bs e hs
    | taken s' left v =>
      have hlt : left.length < n := hn ▸ hlook.shorter hs
      exact htaken s bs s' left v hs (ih left.length hlt s' left rfl)

theorem drained_settled (hlook : Steady look) {r : σ × List β} (h : (drained look s bs).2 = .ok r) :
    look r.1 r.2 = .short := by
  induction s, bs using drained_induction hlook with
  | hshort s bs hs =>
    rw [drained_short hs] at h
    cases h
    exact hs
  | hrefused s bs e hs =>
    rw [drained_refused hs] at h
    cases h
  | htaken s bs s' left v hs ih =>
    rw [drained_taken hlook hs] at h
    exact ih h

theorem drained_append (hlook : Steady look) (more : List β) : drained look s (bs ++ more) =
    match (drained look s bs).2 with
    | .ok r => ((drained look s bs).1 ++ (drained look r.1 (r.2 ++ more)).1, (drained look r.1 (r.2 ++ more)).2)
    | .error e => ((drained look s bs).1, .error e) := by
  induction s, bs using drained_induction hlook with
  | hshort s bs hs => simp only [drained_short hs, List.nil_append]
  | hrefused s bs e hs => rw [drained_refused hs, drained_refused (hlook.refused hs more)]
  | htaken s bs s' left v hs ih =>
    rw [drained_taken hlook hs, drained_taken hlook (hlook.append hs more), ih]
    cases (drained look s' left).2 with
    | ok => simp only [List.append_assoc]
    | error => rfl

theorem drained_forall (hlook : Steady look) {I : σ → Prop} {P : α → Prop}
    (hstep : ∀ s bs s' left v, I s → look s bs = .taken s' left v → I s' ∧ ∀ a ∈ v, P a) (hs : I s) :
    ∀ a ∈ (drained look s bs).1, P a := by
  induction s, bs using drained_induction hlook with
  | hshort s bs h =>
    rw [drained_short h]
    exact nofun
  | hrefused s bs e h =>
    rw [drained_refused h]
    exact nofun
  | htaken s bs s' left v h ih =>
    obtain ⟨hs', hv⟩ := hstep s bs s' left v hs h
    rw [drained_taken hlook h]
    intro a ha
    rcases List.mem_append.mp ha with hfirst | hrest
    · exact hv a (Option.mem_toList.mp hfirst)
    · exact ih hs' a hrest

theorem drained_error_iff (hlook : Steady look) : drained look s bs = (values, .error e) ↔
    ∃ s' left, Reads look s bs values s' left ∧ look s' left = .refused e := by
  constructor
  · intro h
    induction s, bs using drained_induction hlook generalizing values with
    | hshort s bs hs =>
      rw [drained_short hs] at h
      cases h
    | hrefused s bs e' hs =>
      rw [drained_refused hs] at h
      cases h
      exact ⟨s, bs, .nil s bs, hs⟩
    | htaken s bs s' left v hs ih =>
      rw [drained_taken hlook hs] at h
      obtain ⟨hvalues, hstop⟩ := Prod.mk.inj h
      obtain ⟨s'', left', hreads, hend⟩ := ih (Prod.ext rfl hstop)
      exact ⟨s'', left', hvalues ▸ .cons hs hreads, hend⟩
  · rintro ⟨s', left, hreads, hend⟩
    induction hreads with
    | nil => exact drained_refused hend
    | cons h _ ih => rw [drained_taken hlook h, ih hend]

section

variable {r : σ × List β} {chunk : List β} {chunks : List (List β)}

theorem feed_eq (hlook : Steady look) (hr : look r.1 r.2 = .short) (chunks : List (List β)) :
    (feed look r chunks).2 = (drained look r.1 (r.2 ++ chunks.flatten)).2 ∧
      ((drained look r.1 (r.2 ++ chunks.flatten)).2.isOk = true →
        (feed look r chunks).1 = (drained look r.1 (r.2 ++ chunks.flatten)).1) := by
  induction chunks generalizing r with
  | nil =>
    rw [List.flatten_nil, List.append_nil, drained_short hr]
    exact ⟨rfl, fun _ ↦ rfl⟩
  | cons chunk chunks ih =>
    rw [List.flatten_cons, ← List.append_assoc, drained_append hlook, feed, push]
    have hsettled := @drained_settled _ _ _ _ _ r.1 (r.2 ++ chunk) hlook
    revert hsettled
    rcases drained look r.1 (r.2 ++ chunk) with ⟨values, stop⟩
    intro hsettled
    cases stop with
    | error => exact ⟨rfl, nofun⟩
    | ok =>
      obtain ⟨hstop, hvalues⟩ := ih (hsettled rfl)
      exact ⟨hstop, fun hok ↦ congrArg (values ++ ·) (hvalues hok)⟩

theorem feed_ok_iff (hlook : Steady look) (hr : look r.1 r.2 = .short) {r' : σ × List β} :
    feed look r chunks = (values, .ok r') ↔ drained look r.1 (r.2 ++ chunks.flatten) = (values, .ok r') := by
  obtain ⟨hstop, hvalues⟩ := feed_eq hlook hr chunks
  constructor
  · intro h
    rw [h] at hstop hvalues
    rw [← hstop] at hvalues
    exact Prod.ext (hvalues rfl).symm hstop.symm
  · intro h
    rw [h] at hstop hvalues
    exact Prod.ext (hvalues rfl) hstop

theorem feed_whole (h : drained look r.1 (r.2 ++ bs) = (values, .error e)) : feed look r [bs] = ([], .error e) := by
  rw [feed, push, h]

theorem push_values {r' : σ × List β} (h : push look r chunk = .ok (r', values)) :
    drained look r.1 (r.2 ++ chunk) = (values, .ok r') := by
  rw [push] at h
  rcases hd : drained look r.1 (r.2 ++ chunk) with ⟨vs, stop⟩
  rw [hd] at h
  cases stop with
  | ok =>
    cases h
    rfl
  | error => cases h

theorem feed_prefix (hlook : Steady look) (hr : look r.1 r.2 = .short) (chunks : List (List β)) :
    (feed look r chunks).1 <+: (drained look r.1 (r.2 ++ chunks.flatten)).1 := by
  induction chunks generalizing r with
  | nil => exact List.nil_prefix
  | cons chunk chunks ih =>
    rw [feed]
    cases hpush : push look r chunk with
    | error => exact List.nil_prefix
    | ok pushed =>
      obtain ⟨r', values⟩ := pushed
      have hvalues := push_values hpush
      have hsettled : look r'.1 r'.2 = .short := drained_settled hlook (congrArg Prod.snd hvalues)
      rw [List.flatten_cons, ← List.append_assoc, drained_append hlook, hvalues]
      exact (List.prefix_append_right_inj values).mpr (ih hsettled)

theorem feed_singles (hlook : Steady look) (hr : look r.1 r.2 = .short) (bs : List β) :
    feed look r (bs.map ([·])) = drained look r.1 (r.2 ++ bs) := by
  induction bs generalizing r with
  | nil =>
    rw [List.append_nil, drained_short hr]
    rfl
  | cons b bs ih =>
    have hsplit : r.2 ++ b :: bs = (r.2 ++ [b]) ++ bs := by rw [List.append_assoc, List.singleton_append]
    have hrest : drained look r.1 ((r.2 ++ [b]) ++ bs) = _ := drained_append hlook bs
    rw [List.map_cons, feed, push, hsplit, hrest]
    cases hb : look r.1 (r.2 ++ [b]) with
    | short =>
      simp only [drained_short hb, List.nil_append]
      exact ih (r := (r.1, r.2 ++ [b])) hb
    | refused => simp only [drained_refused hb]
    | taken s' =>
      obtain rfl := hlook.exact hr hb
      have hnext := ih (r := (s', [])) (hlook.empty s')
      simp only [drained_taken hlook hb, drained_short (hlook.empty s'), hnext]

variable (look) in
/-- However the stream is cut, the same values are delivered and the same is refused. -/
def Uniform (r : σ × List β) (bs : List β) : Prop :=
  ∀ chunks chunks' : List (List β), chunks.flatten = bs → chunks'.flatten = bs →
    (feed look r chunks).1 = (feed look r chunks').1 ∧
      ∀ e, (feed look r chunks).2 = .error e ↔ (feed look r chunks').2 = .error e

theorem spoiled_iff (hlook : Steady look) :
    Spoiled look s bs ↔ ∃ values e, drained look s bs = (values, .error e) ∧ values ≠ [] := by
  constructor
  · rintro ⟨values, s', left, e, hreads, hend, hne⟩
    exact ⟨values, e, (drained_error_iff hlook).mpr ⟨s', left, hreads, hend⟩, hne⟩
  · rintro ⟨values, e, h, hne⟩
    obtain ⟨s', left, hreads, hend⟩ := (drained_error_iff hlook).mp h
    exact ⟨values, s', left, e, hreads, hend, hne⟩

theorem uniform_iff (hlook : Steady look) : Uniform look (s, []) bs ↔ ¬Spoiled look s bs := by
  have hstart : look s [] = .short := hlook.empty s
  rw [spoiled_iff hlook]
  constructor
  · rintro huniform ⟨values, e, h, hne⟩
    have hsingles := feed_singles hlook (r := (s, [])) hstart bs
    have hwhole := feed_whole (r := (s, [])) h
    have hflat : (bs.map ([·])).flatten = bs := by
      rw [← List.flatMap_def]
      exact List.flatMap_singleton' bs
    have hsame := (huniform [bs] (bs.map ([·])) List.flatten_singleton hflat).1
    rw [hwhole, hsingles, List.nil_append, h] at hsame
    exact hne hsame.symm
  · rintro hsound chunks chunks' rfl hflat
    obtain ⟨hstop, hvalues⟩ := feed_eq hlook (r := (s, [])) hstart chunks
    obtain ⟨hstop', hvalues'⟩ := feed_eq hlook (r := (s, [])) hstart chunks'
    have hprefix := feed_prefix hlook (r := (s, [])) hstart chunks
    have hprefix' := feed_prefix hlook (r := (s, [])) hstart chunks'
    rw [hflat] at hstop' hvalues' hprefix'
    refine ⟨?_, fun e ↦ by rw [hstop, hstop']⟩
    simp only [List.nil_append] at hvalues hvalues' hprefix hprefix'
    rcases hd : drained look s chunks.flatten with ⟨values, stop⟩
    rw [hd] at hvalues hvalues' hprefix hprefix'
    cases stop with
    | ok => rw [hvalues rfl, hvalues' rfl]
    | error e =>
      have hnone : values = [] := by
        by_contra hne
        exact hsound ⟨values, e, hd, hne⟩
      rw [hnone] at hprefix hprefix'
      rw [List.prefix_nil.mp hprefix, List.prefix_nil.mp hprefix']

end

/-- What is read off the front of what has come in, where enough of it is there. -/
structure Pull (β ε α : Type) where
  run : List β → Except ε (Option (α × List β))

namespace Pull

instance : Monad (Pull β ε) where
  pure a := ⟨fun bs ↦ .ok (some (a, bs))⟩
  bind p f := ⟨fun bs ↦
    match p.run bs with
    | .error e => .error e
    | .ok none => .ok none
    | .ok (some (a, left)) => (f a).run left⟩

def take (n : ℕ) : Pull β ε (List β) :=
  ⟨fun bs ↦ if n ≤ bs.length then .ok (some (bs.take n, bs.drop n)) else .ok none⟩

def lift (x : Except ε α) : Pull β ε α := ⟨fun bs ↦ x.map fun a ↦ some (a, bs)⟩

/-- What is read or refused is so whatever comes after it. -/
structure Steady (p : Pull β ε α) : Prop where
  refused : ∀ {bs e}, p.run bs = .error e → ∀ more, p.run (bs ++ more) = .error e
  taken : ∀ {bs a left}, p.run bs = .ok (some (a, left)) →
    ∃ used, bs = used ++ left ∧ ∀ more, p.run (used ++ more) = .ok (some (a, more))

variable {γ : Type} {p : Pull β ε α} {f : α → Pull β ε γ} {a : α}

theorem bind_refused (h : p.run bs = .error e) : (p >>= f).run bs = .error e := by
  simp only [bind, h]

theorem bind_short (h : p.run bs = .ok none) : (p >>= f).run bs = .ok none := by
  simp only [bind, h]

theorem bind_taken (h : p.run bs = .ok (some (a, left))) : (p >>= f).run bs = (f a).run left := by
  simp only [bind, h]

theorem bind_lift {x : Except ε α} (h : x = .ok a) : (lift x >>= f).run bs = (f a).run bs := by
  subst h
  rfl

theorem bind_taken_iff {c : γ} : (p >>= f).run bs = .ok (some (c, left)) ↔
    ∃ a mid, p.run bs = .ok (some (a, mid)) ∧ (f a).run mid = .ok (some (c, left)) := by
  constructor
  · intro h
    rcases hbs : p.run bs with e' | _ | ⟨a, mid⟩
    · rw [bind_refused hbs] at h
      cases h
    · rw [bind_short hbs] at h
      cases h
    · rw [bind_taken hbs] at h
      exact ⟨a, mid, rfl, h⟩
  · rintro ⟨a, mid, hp, hf⟩
    rw [bind_taken hp, hf]

theorem lift_taken_iff {x : Except ε α} : (lift x : Pull β ε α).run bs = .ok (some (a, left)) ↔ x = .ok a ∧ bs = left := by
  cases x <;> simp [lift, Except.map]

theorem pure_run (a : α) (bs : List β) : (pure a : Pull β ε α).run bs = .ok (some (a, bs)) := rfl

theorem take_run (n : ℕ) (bs : List β) : (take n : Pull β ε (List β)).run bs =
    if n ≤ bs.length then .ok (some (bs.take n, bs.drop n)) else .ok none := rfl

theorem take_append {n : ℕ} {front : List β} (h : front.length = n) (more : List β) :
    (take n : Pull β ε (List β)).run (front ++ more) = .ok (some (front, more)) := by
  rw [take_run, if_pos (by rw [List.length_append]; omega), List.take_left' h, List.drop_left' h]

theorem take_taken {n : ℕ} {front : List β} (h : (take n : Pull β ε (List β)).run bs = .ok (some (front, left))) :
    front.length = n ∧ bs = front ++ left := by
  rw [take_run] at h
  split at h
  next hn =>
    cases h
    exact ⟨List.length_take_of_le hn, (List.take_append_drop n bs).symm⟩
  next => cases h

theorem steady_take (n : ℕ) : (take n : Pull β ε (List β)).Steady where
  refused h := by
    rw [take_run] at h
    split at h <;> cases h
  taken h := by
    obtain ⟨hlength, rfl⟩ := take_taken h
    exact ⟨_, rfl, take_append hlength⟩

theorem steady_lift (x : Except ε α) : (lift x : Pull β ε α).Steady := by
  cases x with
  | ok => exact ⟨nofun, fun h ↦ ⟨[], by cases h; rfl, fun _ ↦ by cases h; rfl⟩⟩
  | error => exact ⟨fun h _ ↦ h, nofun⟩

theorem steady_pure (a : α) : (pure a : Pull β ε α).Steady := steady_lift (.ok a)

theorem Steady.bind (hp : p.Steady) (hf : ∀ a, (f a).Steady) : (p >>= f).Steady where
  refused {bs e} h more := by
    rcases hbs : p.run bs with e' | _ | ⟨a, left⟩
    · rw [bind_refused hbs] at h
      rw [bind_refused (hp.refused hbs more), h]
    · rw [bind_short hbs] at h
      cases h
    · rw [bind_taken hbs] at h
      obtain ⟨used, rfl, hused⟩ := hp.taken hbs
      rw [List.append_assoc, bind_taken (hused (left ++ more)), (hf a).refused h]
  taken {bs c left} h := by
    obtain ⟨a, mid, hbs, hmid⟩ := bind_taken_iff.mp h
    obtain ⟨used, rfl, hused⟩ := hp.taken hbs
    obtain ⟨used', rfl, hused'⟩ := (hf a).taken hmid
    refine ⟨used ++ used', (List.append_assoc used used' left).symm, fun more ↦ ?_⟩
    rw [List.append_assoc, bind_taken (hused (used' ++ more)), hused']

theorem Steady.ite {c : Prop} [Decidable c] {q : Pull β ε α} (hp : p.Steady) (hq : q.Steady) :
    (if c then p else q).Steady := by
  split
  · exact hp
  · exact hq

def next (p : σ → Pull β ε (σ × Option α)) (s : σ) (bs : List β) : Look β σ α ε :=
  match (p s).run bs with
  | .error e => .refused e
  | .ok none => .short
  | .ok (some ((s', v), left)) => .taken s' left v

variable {q : σ → Pull β ε (σ × Option α)}

theorem next_refused_iff : next q s bs = .refused e ↔ (q s).run bs = .error e := by
  rw [next]
  rcases (q s).run bs with e' | _ | ⟨⟨s', v⟩, left⟩ <;> simp

theorem next_taken_iff : next q s bs = .taken s' left v ↔ (q s).run bs = .ok (some ((s', v), left)) := by
  rw [next]
  rcases (q s).run bs with e' | _ | ⟨⟨s', v⟩, left⟩ <;> simp [and_comm, and_left_comm]

theorem next_short_iff : next q s bs = .short ↔ (q s).run bs = .ok none := by
  rw [next]
  rcases (q s).run bs with e' | _ | ⟨⟨s', v⟩, left⟩ <;> simp

theorem steady_next (hq : ∀ s, (q s).Steady) (hempty : ∀ s, (q s).run [] = .ok none) :
    Incremental.Steady (next q) where
  empty s := next_short_iff.mpr (hempty s)
  refused h more := next_refused_iff.mpr ((hq _).refused (next_refused_iff.mp h) more)
  taken {s bs s' left v} h := by
    obtain ⟨used, rfl, hused⟩ := (hq s).taken (next_taken_iff.mp h)
    refine ⟨used, ?_, rfl, fun more ↦ next_taken_iff.mpr (hused more)⟩
    -- nothing is taken of an empty stream
    rintro rfl
    have hnothing := hused []
    rw [List.nil_append, hempty] at hnothing
    cases hnothing

end Pull

end Noesar.Lib.Incremental
