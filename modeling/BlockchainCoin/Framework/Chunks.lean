import Mathlib

/-!
# Parsers that are fed in chunks

A parser looks at the beginning of what has arrived and sees too little (`short`), an
item and what follows it, or something that is no item. What it sees stays so when
more arrives (`Stable`), so the items of a stream do not depend on how it is cut.
What is lost does: a call that takes items and then sees something wrong returns
none of them, and `Feeds.all_iff` says for which cuts nothing before is lost.
-/

namespace BCC.Chunks

variable {β μ ε : Type}

/-- What a parser sees at the beginning of its input. -/
inductive Sight (β μ ε : Type)
  | short
  | item (m : μ) (rest : List β)
  | wrong (e : ε)

/-- More input does not change what has been seen, and an item takes some of the input. -/
structure Stable (look : List β → Sight β μ ε) : Prop where
  nil : look [] = .short
  item_append {data rest : List β} {m : μ} (more : List β) (h : look data = .item m rest) :
    look (data ++ more) = .item m (rest ++ more)
  wrong_append {data : List β} {e : ε} (more : List β) (h : look data = .wrong e) : look (data ++ more) = .wrong e
  shrinks {data rest : List β} {m : μ} (h : look data = .item m rest) : rest.length < data.length

/-- The items at the beginning of the input, up to where there is too little for another one. -/
inductive Drains (look : List β → Sight β μ ε) : List β → List μ → List β → Prop
  | short {data : List β} (h : look data = .short) : Drains look data [] data
  | item {data rest rest' : List β} {m : μ} {ms : List μ} (h : look data = .item m rest) (hrest : Drains look rest ms rest') :
    Drains look data (m :: ms) rest'

/-- After some items comes something that is none. -/
inductive Breaks (look : List β → Sight β μ ε) (e : ε) : List β → Prop
  | wrong {data : List β} (h : look data = .wrong e) : Breaks look e data
  | item {data rest : List β} {m : μ} (h : look data = .item m rest) (hrest : Breaks look e rest) : Breaks look e data

variable {look : List β → Sight β μ ε}

theorem drains_or_breaks (hl : Stable look) (data : List β) :
    (∃ ms rest, Drains look data ms rest) ∨ ∃ e, Breaks look e data := by
  cases h : look data with
  | short => exact .inl ⟨[], data, .short h⟩
  | wrong e => exact .inr ⟨e, .wrong h⟩
  | item m rest =>
    have hlt := hl.shrinks h
    rcases drains_or_breaks hl rest with ⟨ms, rest', hrest⟩ | ⟨e, hrest⟩
    · exact .inl ⟨m :: ms, rest', .item h hrest⟩
    · exact .inr ⟨e, .item h hrest⟩
termination_by data.length

theorem Drains.unique {data rest rest' : List β} {ms ms' : List μ} (h : Drains look data ms rest)
    (h' : Drains look data ms' rest') : ms = ms' ∧ rest = rest' := by
  induction h generalizing ms' with
  | short hs =>
    cases h' with
    | short => exact ⟨rfl, rfl⟩
    | item hi => exact nomatch hs.symm.trans hi
  | item hi _ ih =>
    cases h' with
    | short hs => exact nomatch hs.symm.trans hi
    | item hi' hrest =>
      cases hi.symm.trans hi'
      obtain ⟨rfl, rfl⟩ := ih hrest
      exact ⟨rfl, rfl⟩

theorem Drains.not_breaks {data rest : List β} {ms : List μ} {e : ε} (h : Drains look data ms rest) :
    ¬ Breaks look e data := by
  induction h with
  | short hs =>
    intro hb
    cases hb with
    | wrong hw => exact nomatch hs.symm.trans hw
    | item hi => exact nomatch hs.symm.trans hi
  | item hi _ ih =>
    intro hb
    cases hb with
    | wrong hw => exact nomatch hi.symm.trans hw
    | item hi' hrest =>
      cases hi.symm.trans hi'
      exact ih hrest

theorem Drains.rest {data rest : List β} {ms : List μ} (h : Drains look data ms rest) : look rest = .short := by
  induction h with
  | short hs => exact hs
  | item _ _ ih => exact ih

theorem Drains.eq_of_nil {data rest : List β} (h : Drains look data [] rest) : rest = data := by
  cases h with
  | short => rfl

theorem Breaks.unique {data : List β} {e e' : ε} (h : Breaks look e data) (h' : Breaks look e' data) : e = e' := by
  induction h with
  | wrong hw =>
    cases h' with
    | wrong hw' => exact Sight.wrong.inj (hw.symm.trans hw')
    | item hi => exact nomatch hw.symm.trans hi
  | item hi _ ih =>
    cases h' with
    | wrong hw => exact nomatch hi.symm.trans hw
    | item hi' hrest =>
      cases hi.symm.trans hi'
      exact ih hrest

theorem Breaks.append (hl : Stable look) {data : List β} {e : ε} (h : Breaks look e data) (more : List β) :
    Breaks look e (data ++ more) := by
  induction h with
  | wrong hw => exact .wrong (hl.wrong_append more hw)
  | item hi _ ih => exact .item (hl.item_append more hi) ih

/-- Items that were taken are taken when more has arrived, and the rest goes on with what has arrived. -/
theorem Drains.append (hl : Stable look) {data rest more rest' : List β} {ms ms' : List μ} (h : Drains look data ms rest)
    (h' : Drains look (rest ++ more) ms' rest') : Drains look (data ++ more) (ms ++ ms') rest' := by
  induction h with
  | short => exact h'
  | item hi _ ih => exact .item (hl.item_append more hi) (ih h')

theorem Drains.breaks_append (hl : Stable look) {data rest more : List β} {ms : List μ} {e : ε} (h : Drains look data ms rest) :
    Breaks look e (data ++ more) ↔ Breaks look e (rest ++ more) := by
  induction h with
  | short => rfl
  | item hi _ ih =>
    rw [← ih]
    constructor
    · intro hb
      cases hb with
      | wrong hw => exact nomatch hw.symm.trans (hl.item_append more hi)
      | item hi' hrest =>
        cases (hl.item_append more hi).symm.trans hi'
        exact hrest
    · exact .item (hl.item_append more hi)

/-- What is taken of more input comes behind what was taken of its beginning. -/
theorem Drains.split (hl : Stable look) {data rest more rest' : List β} {ms ms' : List μ} (h : Drains look data ms rest)
    (h' : Drains look (data ++ more) ms' rest') : ∃ ms'', ms' = ms ++ ms'' ∧ Drains look (rest ++ more) ms'' rest' := by
  rcases drains_or_breaks hl (rest ++ more) with ⟨ms'', rest'', hr⟩ | ⟨e, hb⟩
  · obtain ⟨rfl, rfl⟩ := h'.unique (h.append hl hr)
    exact ⟨ms'', rfl, hr⟩
  · exact absurd ((h.breaks_append hl).mpr hb) h'.not_breaks

/-! ## Chunks -/

/-- The calls with one chunk each, up to the first that raises: the items they return, and what was raised. -/
inductive Feeds (look : List β → Sight β μ ε) : List β → List (List β) → List μ → Option ε → Prop
  | done {data : List β} : Feeds look data [] [] none
  | more {data chunk rest : List β} {chunks : List (List β)} {ms ms' : List μ} {ending : Option ε}
    (h : Drains look (data ++ chunk) ms rest) (hrest : Feeds look rest chunks ms' ending) :
    Feeds look data (chunk :: chunks) (ms ++ ms') ending
  | broken {data chunk : List β} {chunks : List (List β)} {e : ε} (h : Breaks look e (data ++ chunk)) :
    Feeds look data (chunk :: chunks) [] (some e)

/-- The items that were returned are those of what arrived before the call that raises. -/
theorem Feeds.cut (hl : Stable look) {data : List β} {chunks : List (List β)} {ms' : List μ} {ending : Option ε}
    (h : Feeds look data chunks ms' ending) : ∀ {before : List β} {ms : List μ}, Drains look before ms data →
    (∃ rest, ending = none ∧ Drains look (before ++ chunks.flatten) (ms ++ ms') rest) ∨
      ∃ e pre chunk post rest, ending = some e ∧ chunks = pre ++ chunk :: post ∧
        Drains look (before ++ pre.flatten) (ms ++ ms') rest ∧ Breaks look e (before ++ (pre.flatten ++ chunk)) := by
  induction h with
  | done =>
    intro before ms hb
    rw [List.flatten_nil, List.append_nil, List.append_nil]
    exact .inl ⟨_, rfl, hb⟩
  | @more data chunk rest chunks ms₁ ms₂ ending hd _ ih =>
    intro before ms hb
    rcases ih (hb.append hl hd) with ⟨rest', rfl, hr⟩ | ⟨e, pre, chunk', post, rest', rfl, rfl, hr, he⟩
    · rw [List.append_assoc, List.append_assoc] at hr
      exact .inl ⟨rest', rfl, hr⟩
    · rw [List.append_assoc, List.append_assoc] at hr
      rw [List.append_assoc, ← List.append_assoc chunk] at he
      exact .inr ⟨e, chunk :: pre, chunk', post, rest', rfl, rfl, hr, he⟩
  | @broken data chunk chunks e he =>
    intro before ms hb
    refine .inr ⟨e, [], chunk, chunks, data, rfl, rfl, ?_, ?_⟩
    · rw [List.flatten_nil, List.append_nil, List.append_nil]
      exact hb
    · rw [List.flatten_nil, List.nil_append]
      exact (hb.breaks_append hl).mpr he

/-- Of two beginnings of a list of chunks the one with less in it is the shorter one. -/
theorem prefix_of_flatten_lt {chunks pre pre' post post' : List (List β)} {chunk chunk' : List β}
    (h : chunks = pre ++ chunk :: post) (h' : chunks = pre' ++ chunk' :: post')
    (hlt : pre.flatten.length < pre'.flatten.length) : pre ++ [chunk] <+: pre' := by
  rcases List.prefix_or_prefix_of_prefix (⟨post, by rw [h, List.append_assoc]; rfl⟩ : pre ++ [chunk] <+: chunks)
    ⟨_, h'.symm⟩ with hp | hp
  · exact hp
  · rcases List.prefix_concat_iff.mp hp with rfl | ⟨rest, rfl⟩
    · exact List.prefix_refl _
    · rw [List.flatten_append, List.length_append] at hlt
      omega

/-- What a beginning of whole items misses of them. -/
theorem Drains.of_prefix (hl : Stable look) {items p tail : List β} {ms : List μ} (h : Drains look items ms [])
    (hp : p ++ tail = items) (htail : tail ≠ []) :
    ∃ ms₁ ms₂ rest, Drains look p ms₁ rest ∧ ms = ms₁ ++ ms₂ ∧ ms₂ ≠ [] := by
  subst hp
  rcases drains_or_breaks hl p with ⟨ms₁, rest, hd⟩ | ⟨e, hb⟩
  · obtain ⟨ms₂, rfl, hd'⟩ := hd.split hl h
    refine ⟨ms₁, ms₂, rest, hd, rfl, ?_⟩
    rintro rfl
    exact htail (List.append_eq_nil_iff.mp hd'.eq_of_nil.symm).2
  · exact absurd (hb.append hl tail) h.not_breaks

/-- What comes behind whole items is what raises. -/
theorem Drains.breaks_drop (hl : Stable look) {items bad data : List β} {ms : List μ} {e : ε} (h : Drains look items ms [])
    (hd : data <+: items ++ bad) : Breaks look e (data.drop items.length) ↔ Breaks look e data := by
  by_cases hle : items.length ≤ data.length
  · obtain ⟨p, rfl⟩ : items <+: data := List.prefix_of_prefix_length_le ⟨bad, rfl⟩ hd hle
    rw [List.drop_left, h.breaks_append hl, List.nil_append]
  · obtain ⟨tail, htail⟩ : data <+: items := List.prefix_of_prefix_length_le hd ⟨bad, rfl⟩ (by omega)
    rw [List.drop_eq_nil_of_le (by omega)]
    refine iff_of_false (Drains.short hl.nil).not_breaks fun hb => h.not_breaks (e := e) ?_
    rw [← htail]
    exact hb.append hl tail

/-- Whole items followed by something that raises `e`, cut into chunks: a call raises `e`, and the calls before it return
all of the items exactly where no chunk that begins before the end of the items reaches so far behind it that it raises.
They return what else has arrived by then. -/
theorem Feeds.all_iff (hl : Stable look) {items bad : List β} {ms seen : List μ} {e : ε} {chunks : List (List β)}
    {ending : Option ε} (hitems : Drains look items ms []) (hbad : Breaks look e bad)
    (hchunks : chunks.flatten = items ++ bad) (h : Feeds look [] chunks seen ending) :
    ending = some e ∧ ((∃ p more rest, p <+: bad ∧ Drains look p more rest ∧ seen = ms ++ more) ↔
      ∀ pre chunk post e', chunks = pre ++ chunk :: post → pre.flatten.length < items.length →
        ¬ Breaks look e' ((pre.flatten ++ chunk).drop items.length)) := by
  have hall : Breaks look e chunks.flatten := hchunks ▸ (hitems.breaks_append hl).mpr hbad
  rcases h.cut hl (.short hl.nil) with ⟨rest, -, hd⟩ | ⟨e₀, pre₀, chunk₀, post₀, rest₀, rfl, hcut, hd, hb⟩
  · exact absurd hall hd.not_breaks
  rw [List.nil_append, List.nil_append] at hd
  rw [List.nil_append] at hb
  have hflat : pre₀.flatten ++ chunk₀ ++ post₀.flatten = items ++ bad := by
    rw [← hchunks, hcut, List.flatten_append, List.flatten_cons, List.append_assoc]
  have he : e₀ = e := by
    refine (hb.append hl post₀.flatten).unique ?_
    rw [hflat, ← hchunks]
    exact hall
  subst he
  refine ⟨rfl, ?_⟩
  constructor
  · rintro ⟨p, more, rest, -, -, rfl⟩ pre chunk post e' hsplit hlt hbreaks
    have hle : items.length ≤ pre₀.flatten.length := by
      by_contra hshort
      obtain ⟨tail, htail⟩ : pre₀.flatten <+: items :=
        List.prefix_of_prefix_length_le ⟨_, (List.append_assoc _ _ _).symm.trans hflat⟩ ⟨bad, rfl⟩ (by omega)
      obtain ⟨ms₁, ms₂, rest', hd', rfl, hne⟩ := hitems.of_prefix hl htail
        (fun hnil => hshort (by rw [← htail, hnil, List.append_nil]))
      have hms := congrArg List.length (hd.unique hd').1
      have hpos := List.length_pos_iff.mpr hne
      simp only [List.length_append] at hms
      omega
    obtain ⟨more', rfl⟩ := prefix_of_flatten_lt hsplit hcut (by omega)
    have hprefix : pre.flatten ++ chunk <+: items ++ bad := by
      rw [← hchunks, hsplit, List.flatten_append, List.flatten_cons, ← List.append_assoc]
      exact List.prefix_append _ _
    have hearly := ((hitems.breaks_drop hl hprefix).mp hbreaks).append hl more'.flatten
    rw [List.flatten_append, List.flatten_append, List.flatten_singleton] at hd
    exact hd.not_breaks hearly
  · intro hno
    have hle : items.length ≤ pre₀.flatten.length := by
      by_contra hshort
      exact hno pre₀ chunk₀ post₀ e₀ hcut (by omega) ((hitems.breaks_drop hl ⟨_, hflat⟩).mpr hb)
    have hpre : pre₀.flatten <+: items ++ bad := ⟨_, (List.append_assoc _ _ _).symm.trans hflat⟩
    obtain ⟨p, hp⟩ : items <+: pre₀.flatten := List.prefix_of_prefix_length_le ⟨bad, rfl⟩ hpre hle
    rw [← hp] at hpre hd
    have hpbad : p <+: bad := (List.prefix_append_right_inj items).mp hpre
    rcases drains_or_breaks hl p with ⟨more, rest, hmore⟩ | ⟨e', hb'⟩
    · exact ⟨p, more, rest, hpbad, hmore, (hd.unique (hitems.append hl hmore)).1⟩
    · exact absurd ((hitems.breaks_append hl).mpr hb') hd.not_breaks

end BCC.Chunks
