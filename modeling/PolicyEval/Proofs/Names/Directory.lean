import Mathlib.Algebra.Group.Nat.Defs
import Mathlib.Data.Finset.Card
import Mathlib.Data.List.AList
import PolicyEval.Proofs.Syntax.Words

/-!
# Directories — names that are found by text and by number

An interner is asked for the number of a text and for the text of a number.  `Interner` has one
table and searches it for a text.  A directory looks both up: it has a second table with the numbers
of the texts, which are 32-bit words.  A new text is put into the one table and then into the other,
and a directory that has given out all its numbers takes no new text.

* `Directory`, `Directory.intern?`, `Directory.get?`, `Directory.text` — the two tables and what is
  asked of them.
* `Directory.IsInverse`, `Directory.IsInverse.put` — each table is the inverse of the other, and
  stays so when a text is put into both.
* `Directory.Agrees`, `Directory.IsInverse.agrees` — a directory answers like an interner.
* `Directory.Call`, `Directory.Exchange`, `Directory.serve?` — calls one after another, and the log
  of what was answered.
* `Directory.add?_of_serve?` — interning a text while others use the directory.
* `Directory.Records`, `Directory.Records.intern`, `Directory.exists_records` — what a directory
  knows is what was interned so far.
* `Directory.numbers_match_texts` — texts and numbers correspond to one another after any calls.
-/

namespace PolicyEval

/-! ## Two tables -/

/-- The texts by number and the numbers by text. -/
structure Directory where
  texts : Array String
  numbers : AList fun _ : String => UInt32

namespace Directory

/-- The directory that holds the empty text only. -/
def empty : Directory := ⟨#[""], AList.insert "" 0 ∅⟩

/-- The number of a text that is in the directory. -/
def get? (d : Directory) (s : String) : Option UInt32 := d.numbers.lookup s

/-- The text with the given number, and the empty text for a number not given out. -/
def text (d : Directory) (n : UInt32) : String := d.texts[n.toNat]?.getD ""

/-- The number of the next new text. -/
def next (d : Directory) : UInt32 := .ofNat d.texts.size

/-- Puts a text behind the texts, and then its number into the other table. -/
def put (d : Directory) (s : String) : Directory := ⟨d.texts.push s, d.numbers.insert s d.next⟩

/-- The number of a text, which is put into the directory if it is new and a number is left for it;
there is no answer if it is new and no number is left. -/
def add? (d : Directory) (s : String) : Option (UInt32 × Directory) :=
  match d.get? s with
  | some n => some (n, d)
  | none => if d.texts.size < UInt32.size then some (d.next, d.put s) else none

/-- The number of a text.  A text that is not found is added, for which it is looked up once more:
it may have been added in between by another holder of the directory. -/
def intern? (d : Directory) (s : String) : Option (UInt32 × Directory) :=
  match d.get? s with
  | some n => some (n, d)
  | none => d.add? s

/-- Looking a text up before it is added does not change the answer. -/
theorem intern?_eq_add? (d : Directory) (s : String) : d.intern? s = d.add? s := by
  unfold intern? add?
  cases d.get? s <;> rfl

/-- What may come of interning a text: it was there, or it is put behind the others. -/
theorem intern?_eq_some_iff {d d' : Directory} {s : String} {n : UInt32} :
    d.intern? s = some (n, d') ↔ d.get? s = some n ∧ d' = d ∨
      d.get? s = none ∧ d.texts.size < UInt32.size ∧ n = d.next ∧ d' = d.put s := by
  rw [intern?_eq_add?, add?]
  cases d.get? s with
  | some m => simp [eq_comm]
  | none =>
      by_cases hroom : d.texts.size < UInt32.size
      · simp [hroom, eq_comm]
      · simp [hroom]

/-- Interning fails only for a new text, and only when all 32-bit words are given out. -/
theorem intern?_eq_none_iff {d : Directory} {s : String} :
    d.intern? s = none ↔ d.get? s = none ∧ UInt32.size ≤ d.texts.size := by
  rw [intern?_eq_add?, add?]
  cases d.get? s with
  | some m => simp
  | none => simp

theorem get?_put_self (d : Directory) (s : String) : (d.put s).get? s = some d.next :=
  AList.lookup_insert d.numbers

theorem get?_put_of_ne (d : Directory) {s s' : String} (h : s' ≠ s) :
    (d.put s).get? s' = d.get? s' :=
  AList.lookup_insert_ne h

/-- Interning a text makes it known with its number, and nothing else. -/
theorem get?_of_intern {d d' : Directory} {s : String} {n : UInt32}
    (h : d.intern? s = some (n, d')) (s' : String) (n' : UInt32) :
    d'.get? s' = some n' ↔ d.get? s' = some n' ∨ s' = s ∧ n' = n := by
  obtain ⟨hn, rfl⟩ | ⟨hnew, -, rfl, rfl⟩ := intern?_eq_some_iff.1 h
  · refine ⟨Or.inl, ?_⟩
    rintro (hget | ⟨rfl, rfl⟩)
    · exact hget
    · exact hn
  · by_cases hs : s' = s
    · subst hs
      simp [get?_put_self, hnew, eq_comm]
    · simp [get?_put_of_ne d hs, hs]

/-! ## The tables are inverse to one another -/

/-- A text stands at a position of the one table exactly if the other table has that position as the
number of the text. -/
def IsInverse (d : Directory) : Prop :=
  ∀ (s : String) (i : Nat), d.texts[i]? = some s ↔ (d.get? s).map UInt32.toNat = some i

theorem get?_empty (s : String) : empty.get? s = if s = "" then some 0 else none := by
  by_cases hs : s = ""
  · subst hs
    exact AList.lookup_insert ∅
  · rw [if_neg hs]
    exact AList.lookup_insert_ne hs

theorem isInverse_empty : empty.IsInverse := by
  intro s i
  rw [get?_empty]
  by_cases hs : s = ""
  · simp [empty, hs, List.getElem?_singleton, eq_comm]
  · simp [empty, hs, List.getElem?_singleton, Ne.symm hs]

namespace IsInverse

variable {d d' : Directory} {s : String} {n : UInt32}

theorem text_eq (h : d.IsInverse) (hn : d.get? s = some n) : d.texts[n.toNat]? = some s :=
  (h s n.toNat).2 (by rw [hn, Option.map_some])

/-- Two texts with one number are the same text. -/
theorem eq_of_get? {s' : String} (h : d.IsInverse) (hn : d.get? s = some n)
    (hn' : d.get? s' = some n) : s = s' :=
  Option.some.inj ((h.text_eq hn).symm.trans (h.text_eq hn'))

theorem get?_eq_none_iff (h : d.IsInverse) : d.get? s = none ↔ s ∉ d.texts.toList := by
  rw [List.mem_iff_getElem?, not_exists]
  simp only [Array.getElem?_toList, h s]
  cases d.get? s <;> simp

/-- No text stands in the table twice. -/
theorem nodup (h : d.IsInverse) : d.texts.toList.Nodup := by
  rw [List.nodup_iff_getElem?_ne_getElem?]
  intro i j hij hj heq
  obtain ⟨s, htext⟩ : ∃ s, d.texts[j]? = some s := ⟨_, Array.getElem?_eq_getElem hj⟩
  -- One text has one number, which is the position of both.
  have hi := (h _ i).1 (by simpa only [Array.getElem?_toList, htext] using heq)
  have hj := (h _ j).1 htext
  rw [hi] at hj
  exact hij.ne (Option.some.inj hj)

/-- Putting a new text behind the others keeps the tables inverse, as long as a number is left for
it. -/
theorem put (h : d.IsInverse) (hnew : d.get? s = none) (hroom : d.texts.size < UInt32.size) :
    (d.put s).IsInverse := by
  have hnext : d.next.toNat = d.texts.size := UInt32.toNat_ofNat_of_lt' hroom
  intro s' i
  change (d.texts.push s)[i]? = some s' ↔ _
  rw [Array.getElem?_push]
  -- Only the position behind the table gets a text, and only the new text gets a number.
  by_cases hi : i = d.texts.size
  · subst hi
    have hbehind : (d.get? s').map UInt32.toNat ≠ some d.texts.size := by
      rw [Ne, ← h s']
      simp
    by_cases hs : s' = s
    · subst hs
      simp [get?_put_self, hnext]
    · simp [get?_put_of_ne d hs, hbehind, Ne.symm hs]
  · by_cases hs : s' = s
    · subst hs
      have hold := h s' i
      rw [hnew] at hold
      simp [get?_put_self, hnext, hi, Ne.symm hi, hold]
    · simp [get?_put_of_ne d hs, hi, h s' i]

theorem intern (h : d.IsInverse) (hintern : d.intern? s = some (n, d')) : d'.IsInverse := by
  obtain ⟨-, rfl⟩ | ⟨hnew, hroom, -, rfl⟩ := intern?_eq_some_iff.1 hintern
  · exact h
  · exact h.put hnew hroom

end IsInverse

/-! ## A directory answers like an interner -/

/-- The name that has the given number and text. -/
def nameOf (s : String) (n : UInt32) : Name := ⟨n.toNat, s⟩

/-- A directory and an interner with the same texts that give the same answers. -/
structure Agrees (d : Directory) (names : Interner) : Prop where
  texts : names.texts = d.texts
  get? : ∀ s, names.get? s = (d.get? s).map (nameOf s)
  text : ∀ n : UInt32, names.text n.toNat = d.text n
  intern : ∀ {s n d'}, d.intern? s = some (n, d') → names.intern s = (nameOf s n, ⟨d'.texts⟩)

theorem IsInverse.indexOf?_eq {d : Directory} (h : d.IsInverse) (s : String) :
    Interner.indexOf? ⟨d.texts⟩ s = (d.get? s).map UInt32.toNat := by
  have htoList : Interner.indexOf? ⟨d.texts⟩ s = d.texts.toList.idxOf? s := by
    obtain ⟨⟨texts⟩, numbers⟩ := d
    simp only [Interner.indexOf?, List.idxOf?_toArray]
  rw [htoList]
  cases hget : d.get? s with
  | none =>
      exact List.idxOf?_eq_none_iff.2 (h.get?_eq_none_iff.1 hget)
  | some n =>
      have htext := h.text_eq hget
      rw [← Array.getElem?_toList, List.getElem?_eq_some_iff] at htext
      obtain ⟨hlt, htext⟩ := htext
      -- The search stops at the number of the text, for the text stands nowhere before.
      refine List.idxOf?_eq_some_iff.2 ⟨hlt, htext, fun j hj hsame => ?_⟩
      exact hj.ne ((h.nodup.getElem_inj_iff).1 (hsame.trans htext.symm))

/-- The interner with the texts of a directory answers like the directory. -/
theorem IsInverse.agrees {d : Directory} (h : d.IsInverse) : d.Agrees ⟨d.texts⟩ where
  texts := rfl
  get? s := by
    rw [Interner.get?, h.indexOf?_eq, Option.map_map]
    rfl
  text _ := rfl
  intern {s n d'} hintern := by
    rw [Interner.intern, h.indexOf?_eq]
    obtain ⟨hn, rfl⟩ | ⟨hnew, hroom, rfl, rfl⟩ := intern?_eq_some_iff.1 hintern
    · rw [hn]
      rfl
    · rw [hnew, nameOf, next, UInt32.toNat_ofNat_of_lt' hroom]
      rfl

/-! ## Calls one after another -/

/-- What a directory is asked. -/
inductive Call where
  /-- The number of a text, whether it is new or not. -/
  | intern (s : String)
  /-- The text of a number. -/
  | text (n : UInt32)
  /-- The number of a text that is already there. -/
  | get (s : String)
deriving DecidableEq

/-- A call with its answer. -/
inductive Exchange where
  | interned (s : String) (n : UInt32)
  | resolved (n : UInt32) (s : String)
  | got (s : String) (n? : Option UInt32)
deriving DecidableEq

/-- The call of an exchange. -/
def Exchange.call : Exchange → Call
  | interned s _ => .intern s
  | resolved n _ => .text n
  | got s _ => .get s

namespace Call

/-- The text that a call interns. -/
def interned? : Call → Option String
  | intern s => some s
  | text _ | get _ => none

/-- The texts that calls intern, in the order of the calls. -/
def internedBy (calls : List Call) : List String := calls.filterMap interned?

/-- Whether a call interns a text. -/
def isIntern (call : Call) : Bool := call.interned?.isSome

end Call

/-- The answer to a call and the directory behind it; there is neither if the directory is full. -/
def answer? (d : Directory) : Call → Option (Exchange × Directory)
  | .intern s => (d.intern? s).map fun (n, d) => (.interned s n, d)
  | .text n => some (.resolved n (d.text n), d)
  | .get s => some (.got s (d.get? s), d)

/-- The log of calls that are made one after another, and the directory behind them. -/
def serve? (d : Directory) : List Call → Option (List Exchange × Directory)
  | [] => some ([], d)
  | call :: calls => do
    let (exchange, d) ← d.answer? call
    let (log, d) ← d.serve? calls
    return (exchange :: log, d)

theorem serve?_cons_eq_some {d d' : Directory} {call : Call} {calls : List Call}
    {log : List Exchange} :
    d.serve? (call :: calls) = some (log, d') ↔ ∃ exchange d₁ rest,
      d.answer? call = some (exchange, d₁) ∧ d₁.serve? calls = some (rest, d') ∧
        log = exchange :: rest := by
  simp [serve?, Option.bind_eq_some_iff, @eq_comm _ log]

theorem serve?_concat {d d₁ d₂ : Directory} {calls : List Call} {call : Call}
    {log : List Exchange} {exchange : Exchange} (h : d.serve? calls = some (log, d₁))
    (hcall : d₁.answer? call = some (exchange, d₂)) :
    d.serve? (calls ++ [call]) = some (log ++ [exchange], d₂) := by
  induction calls generalizing d log with
  | nil =>
      cases h
      simp [serve?, hcall]
  | cons first calls ih =>
      obtain ⟨e, d', rest, hfirst, hrest, rfl⟩ := serve?_cons_eq_some.1 h
      exact serve?_cons_eq_some.2 ⟨e, d', _, hfirst, ih hrest, rfl⟩

theorem call_of_answer? {d d' : Directory} {call : Call} {exchange : Exchange}
    (h : d.answer? call = some (exchange, d')) : exchange.call = call := by
  cases call with
  | intern s =>
      obtain ⟨⟨n, d₁⟩, -, heq⟩ := Option.map_eq_some_iff.1 h
      cases heq
      rfl
  | text n | get s =>
      cases h
      rfl

/-- To ask for a text, or for the number of a text that is there, changes nothing. -/
theorem eq_of_answer? {d d' : Directory} {call : Call} {exchange : Exchange}
    (h : d.answer? call = some (exchange, d')) (hcall : call.isIntern = false) : d' = d := by
  cases call with
  | intern s => cases hcall
  | text n | get s =>
      cases h
      rfl

/-- A number that was given to a text is never taken from it. -/
theorem get?_of_serve? {d d' : Directory} {calls : List Call} {log : List Exchange} {s : String}
    {n : UInt32} (h : d.serve? calls = some (log, d')) (hn : d.get? s = some n) :
    d'.get? s = some n := by
  induction calls generalizing d log with
  | nil =>
      cases h
      exact hn
  | cons call calls ih =>
      obtain ⟨exchange, d₁, rest, hcall, hrest, -⟩ := serve?_cons_eq_some.1 h
      refine ih hrest ?_
      cases call with
      | intern s' =>
          obtain ⟨⟨n', d₂⟩, hintern, heq⟩ := Option.map_eq_some_iff.1 hcall
          cases heq
          exact (get?_of_intern hintern s n).2 (.inl hn)
      | text | get =>
          cases hcall
          exact hn

/-- Others may use the directory between the two lookups of a text that is interned.  It is as if
all of their calls were made before. -/
theorem add?_of_serve? {d d' : Directory} {calls : List Call} {log : List Exchange}
    (h : d.serve? calls = some (log, d')) (s : String) :
    (match d.get? s with
      | some n => some (n, d')
      | none => d'.add? s) = d'.intern? s := by
  cases hn : d.get? s with
  | some n => exact (intern?_eq_some_iff.2 (.inl ⟨get?_of_serve? h hn, rfl⟩)).symm
  | none => exact (intern?_eq_add? d' s).symm

/-- Where only the number of new texts is asked for, the tables and the numbers are the same. -/
theorem serve?_filter {d d' : Directory} {calls : List Call} {log : List Exchange}
    (h : d.serve? calls = some (log, d')) :
    d.serve? (calls.filter Call.isIntern) = some (log.filter (·.call.isIntern), d') := by
  induction calls generalizing d log with
  | nil =>
      cases h
      rfl
  | cons call calls ih =>
      obtain ⟨exchange, d₁, rest, hcall, hrest, rfl⟩ := serve?_cons_eq_some.1 h
      have hsame := call_of_answer? hcall
      cases hintern : call.isIntern with
      | true =>
          rw [List.filter_cons_of_pos hintern, List.filter_cons_of_pos (by rw [hsame, hintern])]
          exact serve?_cons_eq_some.2 ⟨exchange, d₁, _, hcall, ih hrest, rfl⟩
      | false =>
          rw [List.filter_cons_of_neg (by rw [hintern]; decide),
            List.filter_cons_of_neg (by rw [hsame, hintern]; decide)]
          obtain rfl := eq_of_answer? hcall hintern
          exact ih hrest

end Directory

/-! ## What was interned is what is known -/

/-- The interner in which the given texts were interned one after another. -/
def Interner.internAll (names : Interner) (texts : List String) : Interner :=
  texts.foldl (fun names s => (names.intern s).2) names

namespace Directory

/-- The directory behind calls with the given log: its tables are inverse to one another, its texts
are the ones that were interned, in the order of their first occurrence and behind the empty text,
their numbers are the ones that were answered, and an interner has taken the same texts. -/
structure Records (calls : List Call) (log : List Exchange) (d : Directory) : Prop where
  calls_eq : log.map Exchange.call = calls
  inverse : d.IsInverse
  texts_eq : d.texts.toList = ("" :: Call.internedBy calls).eraseDups
  get?_iff : ∀ s n, d.get? s = some n ↔ s = "" ∧ n = 0 ∨ .interned s n ∈ log
  names_eq : ⟨d.texts⟩ = Interner.empty.internAll (Call.internedBy calls)

theorem records_empty : Records [] [] empty where
  calls_eq := rfl
  inverse := isInverse_empty
  texts_eq := rfl
  get?_iff s n := by
    rw [get?_empty]
    by_cases hs : s = ""
    · simp [hs, eq_comm]
    · simp [hs]
  names_eq := rfl

/-- One more element is an occurrence of its own if it did not occur before. -/
theorem eraseDups_concat {α : Type} [DecidableEq α] (l : List α) (a : α) :
    (l ++ [a]).eraseDups = if a ∈ l then l.eraseDups else l.eraseDups ++ [a] := by
  rw [List.eraseDups_append, List.removeAll, List.filter_singleton]
  by_cases h : a ∈ l <;> simp [h, List.eraseDups_cons]

theorem Call.internedBy_concat (calls : List Call) (call : Call) :
    internedBy (calls ++ [call]) = internedBy calls ++ call.interned?.toList := by
  rw [internedBy, List.filterMap_append, internedBy]
  cases call <;> rfl

theorem Call.internedBy_concat_intern (calls : List Call) (s : String) :
    internedBy (calls ++ [.intern s]) = internedBy calls ++ [s] :=
  internedBy_concat calls (.intern s)

theorem Call.internedBy_concat_of_not_isIntern (calls : List Call) {call : Call}
    (hcall : call.isIntern = false) : internedBy (calls ++ [call]) = internedBy calls := by
  rw [internedBy_concat]
  cases call with
  | intern s => cases hcall
  | text | get => exact List.append_nil _

namespace Records

variable {calls : List Call} {log : List Exchange} {d d' : Directory} {s : String} {n : UInt32}

theorem get?_eq_none_iff (h : Records calls log d) :
    d.get? s = none ↔ s ∉ "" :: Call.internedBy calls := by
  rw [h.inverse.get?_eq_none_iff, h.texts_eq, List.mem_eraseDups]

/-- The directory is as large as there are different texts. -/
theorem size_eq (h : Records calls log d) :
    d.texts.size = (insert "" (Call.internedBy calls).toFinset).card := by
  have hset : d.texts.toList.toFinset = insert "" (Call.internedBy calls).toFinset := by
    ext t
    rw [h.texts_eq, List.mem_toFinset, List.mem_eraseDups]
    simp
  rw [← hset, List.toFinset_card_of_nodup h.inverse.nodup, Array.length_toList]

/-- A call that interns nothing leaves the records as they are. -/
theorem query (h : Records calls log d) {call : Call} (hcall : call.isIntern = false)
    {exchange : Exchange} (hanswer : d.answer? call = some (exchange, d')) :
    Records (calls ++ [call]) (log ++ [exchange]) d' := by
  obtain rfl := eq_of_answer? hanswer hcall
  have hinterned := Call.internedBy_concat_of_not_isIntern calls hcall
  refine ⟨?_, h.inverse, ?_, fun s n => ?_, ?_⟩
  · rw [List.map_append, h.calls_eq, List.map_singleton, call_of_answer? hanswer]
  · rw [hinterned, h.texts_eq]
  · have hother : exchange ≠ .interned s n := by
      rintro rfl
      rw [← call_of_answer? hanswer] at hcall
      cases hcall
    rw [h.get?_iff, List.mem_append, List.mem_singleton]
    simp [Ne.symm hother]
  · rw [hinterned, h.names_eq]

/-- A text that is interned is recorded with its number, whether it is new or not. -/
theorem intern (h : Records calls log d) (hintern : d.intern? s = some (n, d')) :
    Records (calls ++ [.intern s]) (log ++ [.interned s n]) d' := by
  have hinterned := Call.internedBy_concat_intern calls s
  refine ⟨?_, h.inverse.intern hintern, ?_, fun s' n' => ?_, ?_⟩
  · rw [List.map_append, h.calls_eq]
    rfl
  · rw [hinterned, ← List.cons_append, eraseDups_concat, ← h.texts_eq]
    obtain ⟨hn, rfl⟩ | ⟨hnew, -, -, rfl⟩ := intern?_eq_some_iff.1 hintern
    · have hold : s ∈ "" :: Call.internedBy calls := by
        by_contra hs
        rw [h.get?_eq_none_iff.2 hs] at hn
        cases hn
      rw [if_pos hold]
    · rw [if_neg (h.get?_eq_none_iff.1 hnew), put, Array.toList_push]
  · rw [get?_of_intern hintern, h.get?_iff, List.mem_append, List.mem_singleton, or_assoc,
      Exchange.interned.injEq]
  · rw [hinterned, Interner.internAll, List.foldl_concat, ← Interner.internAll, ← h.names_eq,
      h.inverse.agrees.intern hintern]

/-- A number is left for a new text as long as fewer texts than numbers are interned. -/
theorem size_lt (h : Records calls log d) (hnew : d.get? s = none)
    (hfew : (Call.internedBy (calls ++ [.intern s])).toFinset.card < UInt32.size) :
    d.texts.size < UInt32.size := by
  have hs : s ∉ (Call.internedBy calls).toFinset := by
    rw [List.mem_toFinset]
    exact fun hold => h.get?_eq_none_iff.1 hnew (List.mem_cons_of_mem _ hold)
  have hmore : (Call.internedBy (calls ++ [.intern s])).toFinset =
      insert s (Call.internedBy calls).toFinset := by
    ext t
    simp [Call.internedBy_concat_intern]
  -- The table has the empty text besides the ones that were interned, but it lacks the new one.
  calc d.texts.size
      = (insert "" (Call.internedBy calls).toFinset).card := h.size_eq
    _ ≤ (Call.internedBy calls).toFinset.card + 1 := Finset.card_insert_le _ _
    _ = (Call.internedBy (calls ++ [.intern s])).toFinset.card := by
        rw [hmore, Finset.card_insert_of_notMem hs]
    _ < UInt32.size := hfew

/-- One more call is answered, and the records are kept. -/
theorem exists_answer (h : Records calls log d) (call : Call)
    (hfew : (Call.internedBy (calls ++ [call])).toFinset.card < UInt32.size) :
    ∃ exchange d', d.answer? call = some (exchange, d') ∧
      Records (calls ++ [call]) (log ++ [exchange]) d' := by
  cases call with
  | intern s =>
      cases hintern : d.intern? s with
      | some result => exact ⟨_, _, by rw [answer?, hintern]; rfl, h.intern hintern⟩
      | none =>
          obtain ⟨hnew, hfull⟩ := intern?_eq_none_iff.1 hintern
          exact absurd (h.size_lt hnew hfew) hfull.not_gt
  | text | get => exact ⟨_, _, rfl, h.query rfl rfl⟩

end Records

/-- All calls are answered, and the directory behind them keeps the records. -/
theorem exists_records (calls : List Call)
    (hfew : (Call.internedBy calls).toFinset.card < UInt32.size) :
    ∃ log d, empty.serve? calls = some (log, d) ∧ Records calls log d := by
  induction calls using List.reverseRecOn with
  | nil => exact ⟨[], empty, rfl, records_empty⟩
  | append_singleton calls call ih =>
      have hsub : (Call.internedBy calls).toFinset ⊆
          (Call.internedBy (calls ++ [call])).toFinset := by
        intro s hs
        rw [Call.internedBy_concat, List.mem_toFinset, List.mem_append]
        exact .inl (List.mem_toFinset.1 hs)
      obtain ⟨log, d, hserve, hrecords⟩ :=
        ih (Nat.lt_of_le_of_lt (Finset.card_le_card hsub) hfew)
      obtain ⟨exchange, d', hanswer, hrecords'⟩ := hrecords.exists_answer call hfew
      exact ⟨_, d', serve?_concat hserve hanswer, hrecords'⟩

/-- Whatever is asked of a new directory, every call is answered as long as fewer than `2 ^ 32`
texts are interned, and behind the calls the two tables are inverse to one another and have nothing
twice.  Two texts were given one number exactly if they are the same, and the number that a text was
given, at whatever time, has that text.  A text has a number exactly if it is empty or was interned,
and it is the number that the text was given then and is given again without a change.  The texts
are numbered in the order of their first occurrence behind the empty one, the calls that intern
nothing could be left out, and an interner that takes the same texts gives the same answers. -/
theorem numbers_match_texts (calls : List Call)
    (hfew : (Call.internedBy calls).toFinset.card < 2 ^ 32) :
    ∃ log d, empty.serve? calls = some (log, d) ∧ log.map Exchange.call = calls ∧
      -- the tables
      (∀ s i, d.texts[i]? = some s ↔ (d.numbers.lookup s).map UInt32.toNat = some i) ∧
      d.texts.toList.Nodup ∧ d.numbers.keys.Nodup ∧
      d.texts.toList = ("" :: Call.internedBy calls).eraseDups ∧
      -- the numbers that were given to texts, and the ones that are given next
      (∀ s n s' n', .interned s n ∈ log → .interned s' n' ∈ log → (n = n' ↔ s = s')) ∧
      (∀ s n, .interned s n ∈ log → d.text n = s) ∧
      (∀ s n, d.get? s = some n ↔ s = "" ∧ n = 0 ∨ .interned s n ∈ log) ∧
      (∀ s n, d.get? s = some n → d.intern? s = some (n, d)) ∧
      -- the calls that intern nothing, and the interner
      empty.serve? (calls.filter Call.isIntern) = some (log.filter (·.call.isIntern), d) ∧
      d.Agrees (Interner.empty.internAll (Call.internedBy calls)) := by
  obtain ⟨log, d, hserve, h⟩ := exists_records calls hfew
  have hget {s : String} {n : UInt32} (hlog : .interned s n ∈ log) : d.get? s = some n :=
    (h.get?_iff s n).2 (.inr hlog)
  refine ⟨log, d, hserve, h.calls_eq, h.inverse, h.inverse.nodup, d.numbers.keys_nodup, h.texts_eq,
    ?_, ?_, h.get?_iff, ?_, serve?_filter hserve, h.names_eq ▸ h.inverse.agrees⟩
  · intro s n s' n' hlog hlog'
    constructor
    · rintro rfl
      exact h.inverse.eq_of_get? (hget hlog) (hget hlog')
    · rintro rfl
      exact Option.some.inj ((hget hlog).symm.trans (hget hlog'))
  · intro s n hlog
    rw [text, h.inverse.text_eq (hget hlog), Option.getD_some]
  · intro s n hn
    exact intern?_eq_some_iff.2 (.inl ⟨hn, rfl⟩)

/-- The empty text keeps its number, which is not the number of `x`, although the text of a number
that was not given out is empty as well. -/
theorem numbers_match_texts_empty :
    let calls : List Call := [.intern "x", .get "y", .intern "", .text 2, .intern "y", .intern "x"]
    (Call.internedBy calls).toFinset.card < 2 ^ 32 ∧
      ∃ log d, empty.serve? calls = some (log, d) ∧
        log = [.interned "x" 1, .got "y" none, .interned "" 0, .resolved 2 "", .interned "y" 2,
          .interned "x" 1] ∧
        d.text 2 = "y" ∧ d.get? "y" = some 2 ∧ d.get? "z" = none ∧
          d.texts.toList = ["", "x", "y"] := by
  intro calls
  have hfew : (Call.internedBy calls).toFinset.card < 2 ^ 32 := by decide +kernel
  have hlog : (empty.serve? calls).map Prod.fst = some [.interned "x" 1, .got "y" none,
      .interned "" 0, .resolved 2 "", .interned "y" 2, .interned "x" 1] := by decide +kernel
  obtain ⟨log, d, hserve, -, -, -, -, htexts, -, htext, hget, -⟩ := numbers_match_texts calls hfew
  rw [hserve, Option.map_some, Option.some.injEq] at hlog
  subst hlog
  refine ⟨hfew, _, d, hserve, rfl, htext _ _ (by decide), (hget _ _).2 (.inr (by decide)), ?_, ?_⟩
  · refine Option.eq_none_iff_forall_ne_some.2 fun n hn => ?_
    have hknown := (hget "z" n).1 hn
    simp at hknown
  · rw [htexts]
    decide +kernel

end Directory

end PolicyEval
