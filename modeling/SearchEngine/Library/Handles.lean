import Mathlib.Logic.Function.Basic
import Mathlib.Data.List.Basic

/-! Names for resources, which are given out again after a release. A ticket
tells apart the resources that had a name one after the other. -/

namespace SearchEngine.Handles

abbrev Ticket := Nat

/-- A variable that holds a name. The ticket is that of the resource which the
name was got for; a program does not see it. -/
structure Var (N : Type) where
  name : N
  ticket : Option Ticket
  deriving DecidableEq, Repr

/-- A call on a variable, and the resource that it reached. -/
structure Call (K : Type) where
  kind : K
  meant : Option Ticket
  target : Option Ticket
  deriving DecidableEq, Repr

/-- The call reached the resource that it was meant for. -/
def Call.Reaches {K : Type} (c : Call K) : Prop := c.meant.isSome = true ∧ c.target = c.meant

instance {K : Type} (c : Call K) : Decidable c.Reaches := inferInstanceAs (Decidable (_ ∧ _))

/-- The resources of a process: those which have a name, those for which one
component answers, and the calls which that component has made. -/
structure Ledger (N K : Type) where
  table : N → Option Ticket
  issued : Ticket
  own : List Ticket
  calls : List (Call K)

namespace Ledger

variable {N K : Type}

def init : Ledger N K := ⟨fun _ => none, 0, [], []⟩

def log (h : Ledger N K) (kind : K) (v : Var N) : Ledger N K :=
  { h with calls := h.calls ++ [⟨kind, v.ticket, h.table v.name⟩] }

/-- Somebody else answers for the resource from now on. -/
def handOver (h : Ledger N K) (t : Option Ticket) : Ledger N K :=
  { h with own := h.own.filter fun u => some u ≠ t }

structure WellFormed (h : Ledger N K) : Prop where
  issued : ∀ n t, h.table n = some t → t < h.issued
  own : ∀ t ∈ h.own, t < h.issued
  unique : ∀ n m t, h.table n = some t → h.table m = some t → n = m

/-- Every call of the component has reached what it was meant for, and it
answers for nothing but what it still holds. -/
structure Sound (h : Ledger N K) (held : Option Ticket) : Prop where
  reaches : ∀ c ∈ h.calls, c.Reaches
  held : ∀ n t, h.table n = some t → t ∈ h.own → held = some t

/-- A call went astray, or the component has lost a resource for which it
answers. -/
def Broken (h : Ledger N K) (held : Option Ticket) : Prop :=
  (∃ c ∈ h.calls, ¬c.Reaches) ∨ ∃ n t, h.table n = some t ∧ t ∈ h.own ∧ held ≠ some t

/-- Work that leaves alone what the component had before, makes no call that
goes astray, and of what it acquires keeps this. -/
structure Adds (h h' : Ledger N K) (kept : Option Ticket) : Prop where
  wellFormed : h'.WellFormed
  issued : h.issued ≤ h'.issued
  calls : ∃ cs, h'.calls = h.calls ++ cs ∧ ∀ c ∈ cs, c.Reaches
  before : ∀ n t, t < h.issued → h'.table n = some t → h.table n = some t
  lasting : ∀ n t, t ∈ h.own → h.table n = some t → h'.table n = some t
  own : ∀ t < h.issued, t ∈ h'.own ↔ t ∈ h.own
  fresh : ∀ n t, h.issued ≤ t → h'.table n = some t → t ∈ h'.own → kept = some t

variable {h h' : Ledger N K} {held kept : Option Ticket} {name : N} {kind : K} {v : Var N} {t : Ticket}

theorem wellFormed_init : (init : Ledger N K).WellFormed where
  issued _ _ ht := nomatch ht
  own _ ht := nomatch ht
  unique _ _ _ ht := nomatch ht

theorem sound_init : (init : Ledger N K).Sound held where
  reaches _ hc := nomatch hc
  held _ _ ht := nomatch ht

theorem WellFormed.log (hw : h.WellFormed) : (h.log kind v).WellFormed := ⟨hw.issued, hw.own, hw.unique⟩

theorem WellFormed.handOver (hw : h.WellFormed) (t : Option Ticket) : (h.handOver t).WellFormed where
  issued := hw.issued
  own u hu := hw.own u (List.mem_of_mem_filter hu)
  unique := hw.unique

theorem not_sound : ¬h.Sound held ↔ h.Broken held := by
  constructor
  · intro hnot
    by_contra hb
    rw [Broken, not_or] at hb
    obtain ⟨hcalls, hlost⟩ := hb
    apply hnot
    constructor
    · intro c hc
      by_contra hreaches
      exact hcalls ⟨c, hc, hreaches⟩
    · intro n t ht hown
      by_contra hheld
      exact hlost ⟨n, t, ht, hown, hheld⟩
  · rintro (⟨c, hc, hnot⟩ | ⟨n, t, ht, hown, hheld⟩) hs
    · exact hnot (hs.reaches c hc)
    · exact hheld (hs.held n t ht hown)

theorem Adds.refl (hw : h.WellFormed) : Adds h h none where
  wellFormed := hw
  issued := Nat.le_refl _
  calls := ⟨[], by simp⟩
  before _ _ _ := id
  lasting _ _ _ := id
  own _ _ := Iff.rfl
  fresh n t hle ht _ := absurd (hw.issued n t ht) (Nat.not_lt_of_le hle)

theorem Adds.log (ha : Adds h h' kept) (kind : K) (ht : v.ticket = some t) (hlive : h'.table v.name = some t) :
    Adds h (h'.log kind v) kept where
  wellFormed := ha.wellFormed.log
  issued := ha.issued
  calls := by
    obtain ⟨cs, hcs, hreaches⟩ := ha.calls
    refine ⟨cs ++ [⟨kind, v.ticket, h'.table v.name⟩], ?_, ?_⟩
    · rw [Ledger.log, hcs, List.append_assoc]
    · intro c hc
      rcases List.mem_append.mp hc with hc | hc
      · exact hreaches c hc
      · rw [List.mem_singleton.mp hc, hlive, ht]
        exact ⟨rfl, rfl⟩
  before := ha.before
  lasting := ha.lasting
  own := ha.own
  fresh := ha.fresh

theorem Adds.handOver (ha : Adds h h' (some t)) (hnew : h.issued ≤ t) : Adds h (h'.handOver (some t)) none where
  wellFormed := ha.wellFormed.handOver _
  issued := ha.issued
  calls := ha.calls
  before := ha.before
  lasting := ha.lasting
  own u hlt := by
    rw [Ledger.handOver, List.mem_filter, ← ha.own u hlt]
    refine and_iff_left (decide_eq_true ?_)
    intro hu
    obtain rfl := Option.some.inj hu
    exact absurd hlt (Nat.not_lt_of_le hnew)
  fresh n u hle hu hown := by
    obtain ⟨hown, hne⟩ := List.mem_filter.mp hown
    exact absurd (ha.fresh n u hle hu hown).symm (of_decide_eq_true hne)

theorem Sound.adds (hs : h.Sound held) (ha : Adds h h' none) : h'.Sound held where
  reaches := by
    obtain ⟨cs, hcs, hreaches⟩ := ha.calls
    intro c hc
    rw [hcs] at hc
    exact (List.mem_append.mp hc).elim (hs.reaches c) (hreaches c)
  held n t ht hown := by
    rcases Nat.lt_or_ge t h.issued with hlt | hge
    · exact hs.held n t (ha.before n t hlt ht) ((ha.own t hlt).mp hown)
    · exact nomatch ha.fresh n t hge ht hown

/-- With nothing in hand, the component may keep something. -/
theorem Sound.keeps (hs : h.Sound held) (hnone : ∀ n t, h.table n = some t → t ∉ h.own) (ha : Adds h h' kept) :
    h'.Sound kept where
  reaches := by
    obtain ⟨cs, hcs, hreaches⟩ := ha.calls
    intro c hc
    rw [hcs] at hc
    exact (List.mem_append.mp hc).elim (hs.reaches c) (hreaches c)
  held n t ht hown := by
    rcases Nat.lt_or_ge t h.issued with hlt | hge
    · exact absurd ((ha.own t hlt).mp hown) (hnone n t (ha.before n t hlt ht))
    · exact ha.fresh n t hge ht hown

/-- What is lost stays lost, whatever the component holds instead. -/
theorem Broken.adds (hb : h.Broken held) (hw : h.WellFormed) (ha : Adds h h' kept) {held' : Option Ticket}
    (hheld : held' = held ∨ ∀ t ∈ held', h.issued ≤ t) : h'.Broken held' := by
  rcases hb with ⟨c, hc, hnot⟩ | ⟨n, t, ht, hown, hne⟩
  · obtain ⟨cs, hcs, _⟩ := ha.calls
    exact .inl ⟨c, by rw [hcs]; exact List.mem_append_left cs hc, hnot⟩
  · refine .inr ⟨n, t, ha.lasting n t hown ht, (ha.own t (hw.own t hown)).mpr hown, ?_⟩
    rcases hheld with rfl | hnew
    · exact hne
    · intro heq
      exact absurd (hw.own t hown) (Nat.not_lt_of_le (hnew t heq))

section

variable [DecidableEq N]

/-- The component gets a new resource. -/
def acquire (h : Ledger N K) (name : N) : Ledger N K :=
  { h with table := Function.update h.table name (some h.issued), issued := h.issued + 1, own := h.issued :: h.own }

def release (h : Ledger N K) (kind : K) (v : Var N) : Ledger N K :=
  { h.log kind v with table := Function.update h.table v.name none }

/-- Somebody else gets a new resource. -/
def acquireOther (h : Ledger N K) (name : N) : Ledger N K :=
  { h with table := Function.update h.table name (some h.issued), issued := h.issued + 1 }

def releaseOther (h : Ledger N K) (name : N) : Ledger N K := { h with table := Function.update h.table name none }

theorem acquire_self : (h.acquire name).table name = some h.issued := Function.update_self ..

theorem acquire_of_ne {n : N} (hn : n ≠ name) : (h.acquire name).table n = h.table n := Function.update_of_ne hn ..

theorem acquireOther_of_ne {n : N} (hn : n ≠ name) : (h.acquireOther name).table n = h.table n :=
  Function.update_of_ne hn ..

theorem release_of_ne {n : N} (hn : n ≠ v.name) : (h.release kind v).table n = h.table n := Function.update_of_ne hn ..

theorem releaseOther_of_ne {n : N} (hn : n ≠ name) : (h.releaseOther name).table n = h.table n :=
  Function.update_of_ne hn ..

theorem table_acquireOther {n : N} (ht : (h.acquireOther name).table n = some t) :
    n = name ∧ t = h.issued ∨ n ≠ name ∧ h.table n = some t := by
  simp only [acquireOther] at ht
  by_cases hn : n = name
  · rw [hn, Function.update_self] at ht
    exact .inl ⟨hn, (Option.some.inj ht).symm⟩
  · rw [Function.update_of_ne hn] at ht
    exact .inr ⟨hn, ht⟩

theorem table_releaseOther {n : N} (ht : (h.releaseOther name).table n = some t) : n ≠ name ∧ h.table n = some t := by
  simp only [releaseOther] at ht
  by_cases hn : n = name
  · rw [hn, Function.update_self] at ht
    cases ht
  · rw [Function.update_of_ne hn] at ht
    exact ⟨hn, ht⟩

theorem WellFormed.acquireOther (hw : h.WellFormed) : (h.acquireOther name).WellFormed where
  issued n t ht := by
    rcases table_acquireOther ht with ⟨_, rfl⟩ | ⟨_, ht⟩
    · exact Nat.lt_succ_self _
    · exact Nat.lt_succ_of_lt (hw.issued n t ht)
  own t ht := Nat.lt_succ_of_lt (hw.own t ht)
  unique n m t hn hm := by
    rcases table_acquireOther hn with ⟨rfl, rfl⟩ | ⟨_, hn⟩
    · rcases table_acquireOther hm with ⟨rfl, _⟩ | ⟨_, hm⟩
      · rfl
      · exact absurd (hw.issued m _ hm) (Nat.lt_irrefl _)
    · rcases table_acquireOther hm with ⟨_, rfl⟩ | ⟨_, hm⟩
      · exact absurd (hw.issued n _ hn) (Nat.lt_irrefl _)
      · exact hw.unique n m t hn hm

theorem WellFormed.acquire (hw : h.WellFormed) : (h.acquire name).WellFormed where
  issued := hw.acquireOther.issued
  own t ht := by
    rcases List.mem_cons.mp ht with rfl | ht
    · exact Nat.lt_succ_self _
    · exact Nat.lt_succ_of_lt (hw.own t ht)
  unique := hw.acquireOther.unique

theorem WellFormed.releaseOther (hw : h.WellFormed) : (h.releaseOther name).WellFormed where
  issued n t ht := hw.issued n t (table_releaseOther ht).2
  own := hw.own
  unique n m t hn hm := hw.unique n m t (table_releaseOther hn).2 (table_releaseOther hm).2

theorem WellFormed.release (hw : h.WellFormed) : (h.release kind v).WellFormed :=
  ⟨hw.releaseOther.issued, hw.own, hw.releaseOther.unique⟩

theorem Adds.acquire (ha : Adds h h' none) (hfree : h'.table name = none) :
    Adds h (h'.acquire name) (some h'.issued) where
  wellFormed := ha.wellFormed.acquire
  issued := Nat.le_succ_of_le ha.issued
  calls := ha.calls
  before n t hlt ht := by
    rcases table_acquireOther ht with ⟨_, rfl⟩ | ⟨_, ht⟩
    · exact absurd ha.issued (Nat.not_le_of_lt hlt)
    · exact ha.before n t hlt ht
  lasting n t hown ht := by
    have ht' := ha.lasting n t hown ht
    have hn : n ≠ name := by
      rintro rfl
      rw [hfree] at ht'
      cases ht'
    rw [acquire_of_ne hn, ht']
  own t hlt := by
    rw [Ledger.acquire, List.mem_cons, ← ha.own t hlt]
    refine or_iff_right ?_
    rintro rfl
    exact absurd ha.issued (Nat.not_le_of_lt hlt)
  fresh n t hle ht hown := by
    rcases table_acquireOther ht with ⟨_, rfl⟩ | ⟨_, ht⟩
    · rfl
    · rcases List.mem_cons.mp hown with rfl | hown
      · rfl
      · exact nomatch ha.fresh n t hle ht hown

theorem Adds.release (ha : Adds h h' (some t)) (hw : h.WellFormed) (hnew : h.issued ≤ t) (ht : v.ticket = some t)
    (hlive : h'.table v.name = some t) : Adds h (h'.release kind v) none where
  wellFormed := ha.wellFormed.release
  issued := ha.issued
  calls := (ha.log kind ht hlive).calls
  before n u hlt hu := ha.before n u hlt (table_releaseOther hu).2
  lasting n u hown hu := by
    have hu' := ha.lasting n u hown hu
    have hn : n ≠ v.name := by
      rintro rfl
      obtain rfl := Option.some.inj (hlive.symm.trans hu')
      exact absurd (hw.own t hown) (Nat.not_lt_of_le hnew)
    rw [release_of_ne hn, hu']
  own := ha.own
  fresh n u hle hu hown := by
    obtain ⟨hn, hu⟩ := table_releaseOther hu
    obtain rfl := Option.some.inj (ha.fresh n u hle hu hown)
    exact absurd (ha.wellFormed.unique n v.name t hu hlive) hn

theorem Adds.acquireOther (hw : h.WellFormed) (hfree : h.table name = none) : Adds h (h.acquireOther name) none where
  wellFormed := hw.acquireOther
  issued := Nat.le_succ _
  calls := ⟨[], by simp [Ledger.acquireOther]⟩
  before n t hlt ht := by
    rcases table_acquireOther ht with ⟨_, rfl⟩ | ⟨_, ht⟩
    · exact absurd hlt (Nat.lt_irrefl _)
    · exact ht
  lasting n t _ ht := by
    have hn : n ≠ name := by
      rintro rfl
      rw [hfree] at ht
      cases ht
    rw [acquireOther_of_ne hn, ht]
  own _ _ := Iff.rfl
  fresh _ t hle _ hown := absurd (hw.own t hown) (Nat.not_lt_of_le hle)

theorem Adds.releaseOther (hw : h.WellFormed) (hother : ∀ t, h.table name = some t → t ∉ h.own) :
    Adds h (h.releaseOther name) none where
  wellFormed := hw.releaseOther
  issued := Nat.le_refl _
  calls := ⟨[], by simp [Ledger.releaseOther]⟩
  before _ _ _ ht := (table_releaseOther ht).2
  lasting n t hown ht := by
    have hn : n ≠ name := by
      rintro rfl
      exact hother t ht hown
    rw [releaseOther_of_ne hn, ht]
  own _ _ := Iff.rfl
  fresh _ t hle _ hown := absurd (hw.own t hown) (Nat.not_lt_of_le hle)

/-- The component releases what it holds. -/
theorem Sound.release (hs : h.Sound (some t)) (hw : h.WellFormed) (ht : v.ticket = some t)
    (hlive : h.table v.name = some t) (held : Option Ticket) : (h.release kind v).Sound held where
  reaches c hc := by
    rcases List.mem_append.mp hc with hc | hc
    · exact hs.reaches c hc
    · rw [List.mem_singleton.mp hc, hlive, ht]
      exact ⟨rfl, rfl⟩
  held n u hu hown := by
    obtain ⟨hn, hu⟩ := table_releaseOther hu
    obtain rfl := Option.some.inj (hs.held n u hu hown)
    exact absurd (hw.unique n v.name t hu hlive) hn

theorem Broken.release (hb : h.Broken held) (hheld : v.ticket = held) {held' : Option Ticket}
    (hheld' : held' = held ∨ held' = none) : (h.release kind v).Broken held' := by
  rcases hb with ⟨c, hc, hnot⟩ | ⟨n, t, ht, hown, hne⟩
  · exact .inl ⟨c, List.mem_append_left _ hc, hnot⟩
  · by_cases hn : n = v.name
    · refine .inl ⟨⟨kind, v.ticket, h.table v.name⟩, List.mem_append_right _ (List.mem_singleton_self _), ?_⟩
      rintro ⟨_, htarget⟩
      rw [← hn, ht] at htarget
      exact hne (hheld.symm.trans htarget.symm)
    · refine .inr ⟨n, t, ?_, hown, ?_⟩
      · rw [release_of_ne hn, ht]
      · rcases hheld' with rfl | rfl
        · exact hne
        · exact fun h => nomatch h

end

end Ledger

end SearchEngine.Handles
