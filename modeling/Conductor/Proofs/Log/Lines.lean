import Conductor.Log.Record
import Conductor.Proofs.Json.Reading

/-!
# Log lines are JSON

A log record without a failure is shown as an object on one line. What callers have attached to the record
stands in it under `extra`, each name once with what was attached last, except for the names of the parts of a
record and those that begin with an underscore (`Told.shownExtras_eq`).

**Theorem (`Told.jsonLine_object`).** There is a line if its time is on the calendar, its message can be made and no
integer in it is too long. It gives back what it was made of, up to the plain form of data. It is JSON exactly
if no floating-point number in it is infinite or not a number: these are written as words that JSON does not
have.
-/

namespace Conductor

namespace Log

open Json

variable {r : Record} {es : List (String × Datum)}

/-! ## Extras -/

/-- Whether data under a name are shown. -/
def isExtra (key : String) : Bool := !partNames.contains key && !(key.toList.head? == some '_')

/-- A record of a message, without a failure, to which data are attached one after another. -/
inductive Told : Record → List (String × Datum) → Prop
  | make (logger : String) (level : Int) (message : Datum) (args : List Datum) (created : Binary64) :
    Told (Record.make logger level message args created []) []
  | attach {r : Record} {es : List (String × Datum)} (h : Told r es) (key : String) (d : Datum) :
    Told (r.attach key d) (es ++ [(key, d)])

theorem Told.attachAll (h : Told r es) (more : List (String × Datum)) :
    Told (r.attachAll more) (es ++ more) := by
  induction more generalizing r es with
  | nil => rwa [List.append_nil]
  | cons e more ih =>
    have h := ih (h.attach e.1 e.2)
    rwa [List.append_assoc] at h

/-- What is attached under the name of a part replaces the part, if it can. -/
theorem attach_extras (r : Record) (key : String) (d : Datum) :
    (r.attach key d).extras = if partNames.contains key then r.extras else Entries.insert r.extras key d := by
  unfold Record.attach
  split
  case h_9 => split <;> rfl
  case h_3 | h_5 | h_6 =>
    refine Eq.trans ?_ (if_pos (by decide)).symm
    split <;> rfl
  all_goals exact (if_pos (by decide)).symm

theorem attach_failures (h : r.failures = []) (key : String) (d : Datum) : (r.attach key d).failures = [] := by
  unfold Record.attach
  split
  case h_5 | h_9 => split <;> simpa only using h
  case h_6 => split <;> first | exact h | rfl
  all_goals simpa only using h

theorem attach_keyed {key : String} {d : Datum} (h : Keyed r.logger ∧ Keyed r.levelName) (hd : Keyed d) :
    Keyed (r.attach key d).logger ∧ Keyed (r.attach key d).levelName := by
  unfold Record.attach
  split
  case h_1 => exact ⟨hd, h.2⟩
  case h_4 => exact ⟨h.1, hd⟩
  case h_5 | h_6 | h_9 => split <;> simpa only using h
  all_goals simpa only using h

theorem Told.failures (h : Told r es) : r.failures = [] := by
  induction h with
  | make => rfl
  | attach _ key d ih => exact attach_failures ih key d

theorem Told.keyed (h : Told r es) (hes : ∀ e ∈ es, Keyed e.2) : Keyed r.logger ∧ Keyed r.levelName := by
  induction h with
  | make => exact ⟨trivial, trivial⟩
  | attach _ key d ih =>
    obtain ⟨hes, hd⟩ := List.forall_mem_append.1 hes
    exact attach_keyed (ih hes) (hd _ (List.mem_singleton_self _))

/-- **What is shown** is what was attached under each name last, in the order in which the names came first. -/
theorem Told.shownExtras_eq (h : Told r es) :
    r.shownExtras = Entries.ofList (es.filter fun e => isExtra e.1) := by
  induction h with
  | make => rfl
  | @attach r es h key d ih =>
    have hone : [(key, d)].filter (fun e => isExtra e.1) = if isExtra key then [(key, d)] else [] := by
      rw [List.filter_cons, List.filter_nil]
    rw [List.filter_append, hone, Entries.ofList, Entries.insertAll_append, ← Entries.ofList, ← ih, Record.shownExtras,
      attach_extras, isExtra]
    cases partNames.contains key with
    | true => rfl
    | false =>
      refine (Entries.filter_insert (fun k => !(k.toList.head? == some '_')) _ _ _).trans ?_
      cases key.toList.head? == some '_' <;> rfl

/-! ## Lines -/

/-- What a line gives back. -/
def decoded (r : Record) (moment : Calendar.Moment) (message : String) (shown : Entries Datum) :
    List (String × Datum) :=
  [("timestamp", .text moment.text), ("level", plain r.levelName), ("logger", plain r.logger),
    ("message", .text message)] ++
  if shown.isEmpty then [] else [("extra", .dict (shown.map fun e => (e.1, plain e.2)))]

theorem payload_eq (h : Told r es) (moment : Calendar.Moment) (message : String) :
    r.payload moment message = [("timestamp", .text moment.text), ("level", r.levelName), ("logger", r.logger),
      ("message", .text message)] ++
      if r.shownExtras.isEmpty then [] else [("extra", .dict r.shownExtras)] := by
  rw [Record.payload, h.failures]
  exact List.append_nil _

theorem plain_payload (h : Told r es) (moment : Calendar.Moment) (message : String) :
    plainEntries (r.payload moment message) = decoded r moment message r.shownExtras := by
  rw [payload_eq h, plainEntries_eq, decoded, List.map_append]
  cases hshown : r.shownExtras with
  | nil => rfl
  | cons e es => simp [plain, plainEntries_eq]

theorem keyed_entries {es : List (String × Datum)} (h : ∀ e ∈ es, Keyed e.2) : KeyedEntries es := by
  induction es with
  | nil => trivial
  | cons e es ih =>
    obtain ⟨he, hes⟩ := List.forall_mem_cons.1 h
    exact ⟨he, ih hes⟩

theorem Told.keyed_shown (h : Told r es) (hes : ∀ e ∈ es, Keyed e.2) :
    (Entries.keys r.shownExtras).Nodup ∧ ∀ e ∈ r.shownExtras, Keyed e.2 := by
  rw [h.shownExtras_eq]
  refine ⟨(Entries.latest_insertAll _).once, fun e he => ?_⟩
  rcases Entries.mem_insertAll he with he | he
  · cases he
  · exact hes e (List.mem_filter.1 he).1

theorem keyed_payload (h : Told r es) (hes : ∀ e ∈ es, Keyed e.2) (moment : Calendar.Moment) (message : String) :
    Keyed (.dict (r.payload moment message)) := by
  obtain ⟨hlogger, hlevel⟩ := h.keyed hes
  obtain ⟨hkeys, hshown⟩ := h.keyed_shown hes
  rw [payload_eq h]
  cases hextras : r.shownExtras with
  | nil =>
    have hnames : ["timestamp", "level", "logger", "message"].Nodup := by decide
    exact ⟨hnames, trivial, hlevel, hlogger, trivial, trivial⟩
  | cons e es =>
    rw [hextras] at hkeys hshown
    have hnames : ["timestamp", "level", "logger", "message", "extra"].Nodup := by decide
    exact ⟨hnames, trivial, hlevel, hlogger, trivial, ⟨hkeys, keyed_entries hshown⟩, trivial⟩

theorem finite_payload (h : Told r es) (moment : Calendar.Moment) (message : String) :
    finite (.dict (r.payload moment message)) =
      (finite r.levelName && finite r.logger && r.shownExtras.all fun e => finite e.2) := by
  rw [payload_eq h, finite, finiteEntries_eq]
  cases hshown : r.shownExtras with
  | nil => simp [finite]
  | cons e es => simp [finite, finiteEntries_eq, Bool.and_assoc]

theorem hasLong_payload (h : Told r es) (moment : Calendar.Moment) (message : String) :
    hasLong (.dict (r.payload moment message)) =
      (hasLong r.levelName || hasLong r.logger || hasLongEntry r.shownExtras) := by
  rw [payload_eq h, hasLong]
  cases hshown : r.shownExtras with
  | nil => simp [hasLong, hasLongEntry]
  | cons e es => simp [hasLong, hasLongEntry, Bool.or_assoc]

/-- When there is a line, and which. -/
theorem jsonLine_eq (r : Record) (line : String) : r.jsonLine = .ok line ↔
    ∃ moment message, Calendar.ofSeconds r.created = .ok moment ∧ r.text = .ok message ∧
      hasLong (.dict (r.payload moment message)) = false ∧ line = write (.dict (r.payload moment message)) := by
  unfold Record.jsonLine
  cases Calendar.ofSeconds r.created with
  | error e => exact iff_of_false (by rintro ⟨⟩) (by rintro ⟨_, _, ⟨⟩, _⟩)
  | ok moment =>
    cases r.text with
    | error e => exact iff_of_false (by rintro ⟨⟩) (by rintro ⟨_, _, _, ⟨⟩, _⟩)
    | ok message =>
      show dump _ = _ ↔ _
      rw [dump]
      split
      · next hlong =>
        refine iff_of_false (by rintro ⟨⟩) ?_
        rintro ⟨_, _, ⟨⟩, ⟨⟩, hshort, -⟩
        rw [hlong] at hshort
        cases hshort
      · next hlong =>
        constructor
        · rintro ⟨⟩
          exact ⟨moment, message, rfl, rfl, Bool.eq_false_of_not_eq_true hlong, rfl⟩
        · rintro ⟨_, _, ⟨⟩, ⟨⟩, -, rfl⟩
          rfl

/-- **Log lines are JSON** and lose nothing, as long as all numbers can be written. For a record of any message
with any data attached to it:

There is a line exactly if the time of the record is on the calendar, its message can be made and no integer
that is written has too many digits. It has no control characters, so no line breaks. Read again, it gives the
time, the level, the name of the logger, the message, and under `extra` what was attached under names that are
neither those of parts of a record nor begin with an underscore, each name with its last value, and what JSON
has no form for as the text that shows it; there is no `extra` if there are no such names.

It is JSON exactly if every floating-point number in it is finite. -/
theorem Told.jsonLine_object (h : Told r es) (hes : ∀ e ∈ es, Keyed e.2) :
    ((∃ line, r.jsonLine = .ok line) ↔ (∃ moment, Calendar.ofSeconds r.created = .ok moment) ∧
      (∃ message, r.text = .ok message) ∧ hasLong r.levelName = false ∧ hasLong r.logger = false ∧
      hasLongEntry (Entries.ofList (es.filter fun e => isExtra e.1)) = false) ∧
    ∀ line, r.jsonLine = .ok line →
      (∀ c ∈ line.toList, 0x20 ≤ c.toNat) ∧
      (IsObject line.toList ↔ finite r.levelName = true ∧ finite r.logger = true ∧
        ∀ e ∈ Entries.ofList (es.filter fun e => isExtra e.1), finite e.2 = true) ∧
      ∃ moment message, Calendar.ofSeconds r.created = .ok moment ∧ r.text = .ok message ∧
        read line = some (.dict (decoded r moment message (Entries.ofList (es.filter fun e => isExtra e.1)))) := by
  rw [← h.shownExtras_eq]
  constructor
  · simp only [jsonLine_eq, hasLong_payload h, Bool.or_eq_false_iff]
    constructor
    · rintro ⟨-, moment, message, hmoment, hmessage, ⟨⟨hlevel, hlogger⟩, hextras⟩, -⟩
      exact ⟨⟨moment, hmoment⟩, ⟨message, hmessage⟩, hlevel, hlogger, hextras⟩
    · rintro ⟨⟨moment, hmoment⟩, ⟨message, hmessage⟩, hlevel, hlogger, hextras⟩
      exact ⟨_, moment, message, hmoment, hmessage, ⟨⟨hlevel, hlogger⟩, hextras⟩, rfl⟩
  · intro line hline
    obtain ⟨moment, message, hmoment, hmessage, -, rfl⟩ := (jsonLine_eq r line).1 hline
    refine ⟨(written _).shown, ?_, moment, message, hmoment, hmessage, ?_⟩
    · rw [object_iff, finite_payload h, Bool.and_eq_true, Bool.and_eq_true, List.all_eq_true, and_assoc]
    · rw [read_write (keyed_payload h hes moment message), plain, plain_payload h]

/-! ## Numbers that are not finite -/

/-- A record of the first moment of 1970. -/
def firstRecord (extras : List (String × Datum)) : Record :=
  (Record.make "engine" 20 (.text "done") [] Binary64.zero []).attachAll extras

theorem told_firstRecord (extras : List (String × Datum)) : Told (firstRecord extras) extras :=
  (Told.make "engine" 20 (.text "done") [] Binary64.zero).attachAll extras

theorem exists_firstMoment : ∃ moment, Calendar.ofSeconds Binary64.zero = .ok moment := by
  have hok : (Calendar.ofSeconds Binary64.zero).isOk = true := by decide +kernel
  cases h : Calendar.ofSeconds Binary64.zero with
  | ok moment => exact ⟨moment, rfl⟩
  | error e =>
    rw [h] at hok
    cases hok

/-- A number that is no number spoils the line. -/
theorem jsonLine_nan :
    ∃ line, (firstRecord [("f", .float .nan)]).jsonLine = .ok line ∧ ¬IsObject line.toList := by
  obtain ⟨moment, hmoment⟩ := exists_firstMoment
  have h := told_firstRecord [("f", .float .nan)]
  refine ⟨_, (jsonLine_eq _ _).2 ⟨moment, "done", hmoment, rfl, ?_, rfl⟩, ?_⟩
  · exact (hasLong_payload h moment "done").trans rfl
  · rw [object_iff, finite_payload h]
    exact Bool.false_ne_true

/-- Names of all sorts, and an object that JSON has no form for. -/
def stepExtras : List (String × Datum) :=
  [("step_id", .text "fetch"), ("_seq", .int 3), ("result", .foreign "<opaque>"), ("levelno", .float .nan),
    ("step_id", .dict [("tries", .list [.int 2, .null])])]

theorem jsonLine_object_step : (∀ e ∈ stepExtras, Keyed e.2) ∧
    ∃ line, (firstRecord stepExtras).jsonLine = .ok line ∧ IsObject line.toList ∧ ∃ moment,
      read line = some (.dict [("timestamp", .text moment), ("level", .text "INFO"), ("logger", .text "engine"),
        ("message", .text "done"),
        ("extra", .dict [("step_id", .dict [("tries", .list [.int 2, .null])]), ("result", .text "<opaque>")])]) := by
  have hkeyed : ∀ e ∈ stepExtras, Keyed e.2 := by
    simp [stepExtras, Keyed, KeyedItems, KeyedEntries, Entries.keys]
  obtain ⟨hline, hobject⟩ := (told_firstRecord stepExtras).jsonLine_object hkeyed
  obtain ⟨line, h⟩ := hline.2 ⟨exists_firstMoment, ⟨"done", rfl⟩, rfl, rfl, by decide +kernel⟩
  obtain ⟨-, hjson, moment, message, -, hmessage, hread⟩ := hobject line h
  refine ⟨hkeyed, line, h, hjson.2 ⟨rfl, rfl, ?_⟩, moment.text, ?_⟩
  · exact List.forall_mem_cons.2 ⟨rfl, List.forall_mem_singleton.2 rfl⟩
  · obtain rfl : message = "done" := (Except.ok.inj hmessage).symm
    exact hread

end Log

end Conductor
