import Ds4.Server.Prompt

/-!
The printer of a reply: it takes the think tags out of the text, shows what stands
between them in grey, and holds back an unfinished tag until the next piece of text.
-/
namespace Ds4.Cli
open ByteStr Ds4.Prompt

structure TokenPrinter where
  formatThinking : Bool
  inThink : Bool
  colorOpen : Bool
  useColor : Bool
  lastOutputNewline : Bool
  pending : Bytes
  out : Bytes
  deriving DecidableEq

def bytesIsPartialPrefix (p lit : Bytes) : Bool := p.length < lit.length && p.isPrefixOf lit

def greyOn : Bytes := [27, 91, 57, 48, 109]

def colorOff : Bytes := [27, 91, 48, 109]

def setGrey (p : TokenPrinter) : TokenPrinter :=
  if p.useColor && !p.colorOpen then { p with out := p.out ++ greyOn, colorOpen := true } else p

def resetColor (p : TokenPrinter) : TokenPrinter :=
  if p.useColor && p.colorOpen then { p with out := p.out ++ colorOff, colorOpen := false } else p

def writeChar (p : TokenPrinter) (c : UInt8) : TokenPrinter :=
  let p := if p.inThink then setGrey p else p
  { p with out := p.out ++ [c], lastOutputNewline := c = 10 }

/-- A closing tag: the text goes on in the first column. -/
def endThink (p : TokenPrinter) : TokenPrinter :=
  let p := resetColor { p with inThink := false }
  if p.lastOutputNewline then p else { p with out := p.out ++ [10], lastOutputNewline := true }

/-- The loop of `token_printer_process`, over what is left of the buffer. -/
def processLoop (finish : Bool) : Nat → Bytes → TokenPrinter → TokenPrinter
  | 0, _, p => p
  | fuel + 1, cur, p =>
    match cur with
    | [] => p
    | c :: rest =>
      if hasPrefix thinkOpen cur then processLoop finish fuel (cur.drop thinkOpen.length) { p with inThink := true }
      else if hasPrefix thinkClose cur then processLoop finish fuel (cur.drop thinkClose.length) (endThink p)
      else if !finish && c = 60 && (bytesIsPartialPrefix cur thinkOpen || bytesIsPartialPrefix cur thinkClose) then
        if cur.length < 16 then { p with pending := cur } else p
      else processLoop finish fuel rest (writeChar p c)

/-- Every turn takes an octet at least. -/
def tokenPrinterProcess (p : TokenPrinter) (text : Bytes) (finish : Bool) : TokenPrinter :=
  let buf := p.pending ++ text
  processLoop finish buf.length buf { p with pending := [] }

def tokenPrinterFinish (p : TokenPrinter) : TokenPrinter :=
  if p.formatThinking then resetColor (tokenPrinterProcess p [] true) else p

def tokenPrinterWriteText (p : TokenPrinter) (text : Bytes) : TokenPrinter :=
  if p.formatThinking then tokenPrinterProcess p text false
  else
    match text.getLast? with
    | none => p
    | some c => { p with out := p.out ++ text, lastOutputNewline := c = 10 }

section kept

/-- What the writing of text leaves alone. -/
structure Kept (p q : TokenPrinter) : Prop where
  pending : q.pending = p.pending
  formatThinking : q.formatThinking = p.formatThinking

theorem setGrey_kept (p : TokenPrinter) : Kept p (setGrey p) := by
  unfold setGrey
  split <;> exact ⟨rfl, rfl⟩

theorem resetColor_kept (p : TokenPrinter) : Kept p (resetColor p) := by
  unfold resetColor
  split <;> exact ⟨rfl, rfl⟩

theorem writeChar_kept (p : TokenPrinter) (c : UInt8) : Kept p (writeChar p c) := by
  unfold writeChar
  dsimp only
  split
  · exact ⟨(setGrey_kept p).pending, (setGrey_kept p).formatThinking⟩
  · exact ⟨rfl, rfl⟩

theorem endThink_kept (p : TokenPrinter) : Kept p (endThink p) := by
  have off := resetColor_kept { p with inThink := false }
  unfold endThink
  dsimp only
  split <;> exact ⟨off.pending, off.formatThinking⟩

theorem processLoop_formatThinking (finish : Bool) (n : Nat) (cur : Bytes) (p : TokenPrinter) :
    (processLoop finish n cur p).formatThinking = p.formatThinking := by
  induction n generalizing cur p with
  | zero => rfl
  | succ n ih =>
    cases cur with
    | nil => rfl
    | cons c rest =>
      unfold processLoop
      dsimp only
      split
      · exact ih _ _
      · split
        · rw [ih]
          exact (endThink_kept p).formatThinking
        · split
          · split <;> rfl
          · rw [ih]
            exact (writeChar_kept p c).formatThinking

end kept

section scan

theorem open_pos : 0 < thinkOpen.length := by decide

theorem close_pos : 0 < thinkClose.length := by decide

theorem processLoop_fuel (finish : Bool) {n : Nat} {cur : Bytes} (enough : cur.length ≤ n) (p : TokenPrinter) :
    processLoop finish n cur p = processLoop finish cur.length cur p := by
  have key : ∀ n m (cur : Bytes) p, cur.length ≤ n → cur.length ≤ m → processLoop finish n cur p = processLoop finish m cur p := by
    intro n
    induction n with
    | zero =>
      intro m cur p few _
      rw [List.length_eq_zero_iff.mp (Nat.le_zero.mp few)]
      cases m <;> rfl
    | succ n ih =>
      intro m cur p few few'
      cases cur with
      | nil => cases m <;> rfl
      | cons c rest =>
        cases m with
        | zero => exact absurd few' (Nat.not_succ_le_zero _)
        | succ m =>
          have first := open_pos
          have second := close_pos
          rw [List.length_cons] at few few'
          unfold processLoop
          dsimp only
          rw [ih m ((c :: rest).drop thinkOpen.length) _ (by rw [List.length_drop, List.length_cons]; omega)
              (by rw [List.length_drop, List.length_cons]; omega),
            ih m ((c :: rest).drop thinkClose.length) _ (by rw [List.length_drop, List.length_cons]; omega)
              (by rw [List.length_drop, List.length_cons]; omega),
            ih m rest _ (by omega) (by omega)]
  exact key n cur.length cur p enough (Nat.le_refl _)

/-- The whole loop over a buffer. -/
def scan (finish : Bool) (cur : Bytes) (p : TokenPrinter) : TokenPrinter := processLoop finish cur.length cur p

variable {finish : Bool} {p : TokenPrinter} {cur rest : Bytes} {c : UInt8}

theorem scan_nil : scan finish [] p = p := rfl

theorem scan_open : scan finish (thinkOpen ++ rest) p = scan finish rest { p with inThink := true } := by
  have starts : hasPrefix thinkOpen (thinkOpen ++ rest) = true := hasPrefix_iff.mpr (List.prefix_append _ _)
  have shape : thinkOpen ++ rest = 60 :: ([116, 104, 105, 110, 107, 62] ++ rest) := rfl
  unfold scan
  rw [shape, List.length_cons, processLoop, ← shape, if_pos starts, List.drop_left]
  exact processLoop_fuel finish (by rw [List.length_append]; omega) _

theorem scan_close : scan finish (thinkClose ++ rest) p = scan finish rest (endThink p) := by
  have starts : hasPrefix thinkClose (thinkClose ++ rest) = true := hasPrefix_iff.mpr (List.prefix_append _ _)
  have shape : thinkClose ++ rest = 60 :: ([47, 116, 104, 105, 110, 107, 62] ++ rest) := rfl
  have differ : hasPrefix thinkOpen (thinkClose ++ rest) = false := rfl
  have other : ¬ hasPrefix thinkOpen (thinkClose ++ rest) = true := by
    rw [differ]
    exact Bool.false_ne_true
  unfold scan
  rw [shape, List.length_cons, processLoop, ← shape, if_neg other, if_pos starts, List.drop_left]
  exact processLoop_fuel finish (by rw [List.length_append]; omega) _

/-- The start of a tag at the very end. -/
def Unfinished (cur : Bytes) : Prop := bytesIsPartialPrefix cur thinkOpen = true ∨ bytesIsPartialPrefix cur thinkClose = true

theorem partial_iff {lit : Bytes} : bytesIsPartialPrefix cur lit = true ↔ cur.length < lit.length ∧ cur <+: lit := by
  unfold bytesIsPartialPrefix
  rw [Bool.and_eq_true, decide_eq_true_eq, List.isPrefixOf_iff_prefix]

theorem partial_start {lit : Bytes} (part : bytesIsPartialPrefix cur lit = true) : cur.length < lit.length ∧ cur <+: lit :=
  partial_iff.mp part

theorem Unfinished.short (unfinished : Unfinished cur) : cur.length < 16 := by
  have first : thinkOpen.length = 7 := rfl
  have second : thinkClose.length = 8 := rfl
  rcases unfinished with open_ | close
  · have less := (partial_start open_).1
    omega
  · have less := (partial_start close).1
    omega

theorem Unfinished.head (unfinished : Unfinished (c :: rest)) : c = 60 := by
  rcases unfinished with open_ | close
  · exact (List.cons_prefix_cons.mp (partial_start open_).2).1
  · exact (List.cons_prefix_cons.mp (partial_start close).2).1

theorem Unfinished.noOpen (unfinished : Unfinished cur) : ¬ hasPrefix thinkOpen cur = true := by
  intro starts
  have fits := (hasPrefix_iff.mp starts).length_le
  rcases unfinished with open_ | close
  · have less := (partial_start open_).1
    omega
  · have both := List.IsPrefix.trans (hasPrefix_iff.mp starts) (partial_start close).2
    exact absurd both (by decide)

theorem Unfinished.noClose (unfinished : Unfinished cur) : ¬ hasPrefix thinkClose cur = true := by
  intro starts
  have fits := (hasPrefix_iff.mp starts).length_le
  rcases unfinished with open_ | close
  · have both := List.IsPrefix.trans (hasPrefix_iff.mp starts) (partial_start open_).2
    exact absurd both (by decide)
  · have less := (partial_start close).1
    omega

theorem scan_hold (some_ : cur ≠ []) (unfinished : Unfinished cur) : scan false cur p = { p with pending := cur } := by
  cases cur with
  | nil => exact absurd rfl some_
  | cons c rest =>
    have held : (!false && decide (c = 60) && (bytesIsPartialPrefix (c :: rest) thinkOpen ||
        bytesIsPartialPrefix (c :: rest) thinkClose)) = true := by
      rw [unfinished.head, Bool.not_false, Bool.true_and, decide_eq_true rfl, Bool.true_and, Bool.or_eq_true, ← unfinished.head]
      exact unfinished
    unfold scan
    rw [List.length_cons, processLoop, if_neg unfinished.noOpen, if_neg unfinished.noClose, if_pos held,
      if_pos unfinished.short]

theorem scan_char (noOpen : ¬ hasPrefix thinkOpen (c :: rest) = true) (noClose : ¬ hasPrefix thinkClose (c :: rest) = true)
    (whole : finish = true ∨ ¬ Unfinished (c :: rest)) : scan finish (c :: rest) p = scan finish rest (writeChar p c) := by
  have goesOn : ¬ (!finish && decide (c = 60) && (bytesIsPartialPrefix (c :: rest) thinkOpen ||
      bytesIsPartialPrefix (c :: rest) thinkClose)) = true := by
    rw [Bool.and_eq_true, Bool.and_eq_true, Bool.or_eq_true]
    rintro ⟨⟨early, -⟩, unfinished⟩
    rcases whole with done | not
    · rw [done] at early
      cases early
    · exact not unfinished
  unfold scan
  rw [List.length_cons, processLoop, if_neg noOpen, if_neg noClose, if_neg goesOn]

/-- The turns of the loop, by what stands at the front. -/
theorem scan_front (cur : Bytes) : cur = [] ∨ (∃ rest, cur = thinkOpen ++ rest) ∨ (∃ rest, cur = thinkClose ++ rest) ∨
    ∃ c rest, cur = c :: rest ∧ ¬ hasPrefix thinkOpen cur = true ∧ ¬ hasPrefix thinkClose cur = true := by
  cases cur with
  | nil => exact .inl rfl
  | cons c rest =>
    by_cases opens : hasPrefix thinkOpen (c :: rest) = true
    · obtain ⟨tail, same⟩ := hasPrefix_iff.mp opens
      exact .inr (.inl ⟨tail, same.symm⟩)
    · by_cases closes : hasPrefix thinkClose (c :: rest) = true
      · obtain ⟨tail, same⟩ := hasPrefix_iff.mp closes
        exact .inr (.inr (.inl ⟨tail, same.symm⟩))
      · exact .inr (.inr (.inr ⟨c, rest, rfl, opens, closes⟩))

end scan

section pieces

/-- A tag that the next piece completes has begun before it. -/
theorem partial_of_completed {lit a b : Bytes} (starts : lit <+: a ++ b) (not : ¬ lit <+: a) :
    bytesIsPartialPrefix a lit = true := by
  rw [partial_iff]
  have shorter : a.length < lit.length := by
    by_contra long
    exact not (List.prefix_of_prefix_length_le starts (List.prefix_append a b) (Nat.le_of_not_lt long))
  exact ⟨shorter, List.prefix_of_prefix_length_le (List.prefix_append a b) starts (Nat.le_of_lt shorter)⟩

theorem partial_front {lit a b : Bytes} (part : bytesIsPartialPrefix (a ++ b) lit = true) :
    bytesIsPartialPrefix a lit = true := by
  obtain ⟨shorter, front⟩ := partial_start part
  rw [List.length_append] at shorter
  exact partial_iff.mpr ⟨by omega, (List.prefix_append a b).trans front⟩

/-- A text is read through a cut: what is held back at the cut is read again with the next
    piece. By induction on the length of the first piece. -/
theorem scan_append (finish : Bool) (a b : Bytes) {p : TokenPrinter} (idle : p.pending = []) :
    scan finish (a ++ b) p = scan finish ((scan false a p).pending ++ b) { scan false a p with pending := [] } := by
  induction len : a.length using Nat.strong_induction_on generalizing a p with
  | _ n ih =>
    subst len
    rcases scan_front a with rfl | ⟨rest, rfl⟩ | ⟨rest, rfl⟩ | ⟨c, rest, rfl, noOpen, noClose⟩
    · rw [scan_nil, idle, List.nil_append, ← idle]
    · have less : rest.length < (thinkOpen ++ rest).length := by
        have pos := open_pos
        rw [List.length_append]
        omega
      rw [List.append_assoc, scan_open, scan_open]
      exact ih _ less rest (by exact idle) rfl
    · have less : rest.length < (thinkClose ++ rest).length := by
        have pos := close_pos
        rw [List.length_append]
        omega
      have still : (endThink p).pending = [] := (endThink_kept p).pending.trans idle
      rw [List.append_assoc, scan_close, scan_close]
      exact ih _ less rest still rfl
    · by_cases unfinished : Unfinished (c :: rest)
      · rw [scan_hold (List.cons_ne_nil c rest) unfinished, ← idle]
      · have noOpen' : ¬ hasPrefix thinkOpen (c :: (rest ++ b)) = true := by
          intro starts
          exact unfinished (.inl (partial_of_completed (hasPrefix_iff.mp starts) fun here => noOpen (hasPrefix_iff.mpr here)))
        have noClose' : ¬ hasPrefix thinkClose (c :: (rest ++ b)) = true := by
          intro starts
          exact unfinished (.inr (partial_of_completed (hasPrefix_iff.mp starts) fun here => noClose (hasPrefix_iff.mpr here)))
        have whole : ¬ Unfinished (c :: (rest ++ b)) := by
          rintro (opens | closes)
          · exact unfinished (.inl (partial_front (a := c :: rest) opens))
          · exact unfinished (.inr (partial_front (a := c :: rest) closes))
        have still : (writeChar p c).pending = [] := (writeChar_kept p c).pending.trans idle
        rw [List.cons_append, scan_char noOpen' noClose' (.inr whole), scan_char noOpen noClose (.inr unfinished)]
        exact ih _ (Nat.lt_succ_self _) rest still rfl

/-- What is held back is all that a piece leaves. -/
theorem process_eq (p : TokenPrinter) (text : Bytes) (finish : Bool) :
    tokenPrinterProcess p text finish = scan finish (p.pending ++ text) { p with pending := [] } := rfl

theorem processes_append (p : TokenPrinter) (first second : Bytes) (finish : Bool) :
    tokenPrinterProcess (tokenPrinterProcess p first false) second finish = tokenPrinterProcess p (first ++ second) finish := by
  rw [process_eq, process_eq p first, process_eq, ← List.append_assoc, scan_append finish (p.pending ++ first) second rfl]

theorem pieces_process (p : TokenPrinter) (pieces : List Bytes) (last : Bytes) (finish : Bool) :
    tokenPrinterProcess (pieces.foldl (fun p text => tokenPrinterProcess p text false) p) last finish =
      tokenPrinterProcess p (pieces.flatten ++ last) finish := by
  induction pieces generalizing p with
  | nil => rfl
  | cons text pieces ih => rw [List.foldl_cons, ih, processes_append, List.flatten_cons, List.append_assoc]

end pieces

section items

/-- What a text is made of. -/
inductive Item where
  | opens
  | closes
  | octet (c : UInt8)
  deriving DecidableEq

/-- The items of a text from the left: a tag is taken where one stands, any other octet is itself. -/
inductive Reads : Bytes → List Item → Prop
  | nil : Reads [] []
  | opens {rest : Bytes} {items : List Item} (tail : Reads rest items) : Reads (thinkOpen ++ rest) (.opens :: items)
  | closes {rest : Bytes} {items : List Item} (tail : Reads rest items) : Reads (thinkClose ++ rest) (.closes :: items)
  | octet {c : UInt8} {rest : Bytes} {items : List Item} (noOpen : ¬ thinkOpen <+: c :: rest)
      (noClose : ¬ thinkClose <+: c :: rest) (tail : Reads rest items) : Reads (c :: rest) (.octet c :: items)

/-- The text without its tags. -/
def contents : List Item → Bytes
  | [] => []
  | .octet c :: items => c :: contents items
  | _ :: items => contents items

theorem reads_exists (text : Bytes) : ∃ items, Reads text items := by
  induction len : text.length using Nat.strong_induction_on generalizing text with
  | _ n ih =>
    subst len
    rcases scan_front text with rfl | ⟨rest, rfl⟩ | ⟨rest, rfl⟩ | ⟨c, rest, rfl, noOpen, noClose⟩
    · exact ⟨[], .nil⟩
    · have pos := open_pos
      obtain ⟨items, tail⟩ := ih rest.length (by rw [List.length_append]; omega) rest rfl
      exact ⟨_, .opens tail⟩
    · have pos := close_pos
      obtain ⟨items, tail⟩ := ih rest.length (by rw [List.length_append]; omega) rest rfl
      exact ⟨_, .closes tail⟩
    · obtain ⟨items, tail⟩ := ih rest.length (Nat.lt_succ_self _) rest rfl
      exact ⟨_, .octet (fun starts => noOpen (hasPrefix_iff.mpr starts)) (fun starts => noClose (hasPrefix_iff.mpr starts)) tail⟩

/-- A text with something shown between its octets: colour switches and ends of lines. -/
inductive Decorated : Bytes → Bytes → Prop
  | nil : Decorated [] []
  | octet (c : UInt8) {text shown : Bytes} (tail : Decorated text shown) : Decorated (c :: text) (c :: shown)
  | grey {text shown : Bytes} (tail : Decorated text shown) : Decorated text (greyOn ++ shown)
  | off {text shown : Bytes} (tail : Decorated text shown) : Decorated text (colorOff ++ shown)
  | newline {text shown : Bytes} (tail : Decorated text shown) : Decorated text (10 :: shown)

/-- What is on the screen: whether the text stands between think tags, in grey, at the
    start of a line. -/
structure Screen where
  inThink : Bool
  grey : Bool
  newline : Bool

/-- How the items are shown: the grey comes on with the first octet behind an opening tag and
    goes off at the next closing tag, where an unfinished line ends, or at the end. -/
def shown (useColor : Bool) : Screen → List Item → Bytes
  | s, [] => if useColor && s.grey then colorOff else []
  | s, .opens :: items => shown useColor { s with inThink := true } items
  | s, .closes :: items =>
    (if useColor && s.grey then colorOff else []) ++ (if s.newline then [] else [10]) ++
      shown useColor ⟨false, s.grey && !useColor, true⟩ items
  | s, .octet c :: items =>
    (if s.inThink && useColor && !s.grey then greyOn else []) ++
      c :: shown useColor ⟨s.inThink, s.grey || (s.inThink && useColor), c = 10⟩ items

theorem shown_closes (useColor : Bool) (s : Screen) (items : List Item) : shown useColor s (.closes :: items) =
    (if useColor && s.grey then colorOff else []) ++ (if s.newline then [] else [10]) ++
      shown useColor ⟨false, s.grey && !useColor, true⟩ items := rfl

theorem shown_octet (useColor : Bool) (s : Screen) (c : UInt8) (items : List Item) : shown useColor s (.octet c :: items) =
    (if s.inThink && useColor && !s.grey then greyOn else []) ++
      c :: shown useColor ⟨s.inThink, s.grey || (s.inThink && useColor), c = 10⟩ items := rfl

def TokenPrinter.screen (p : TokenPrinter) : Screen := ⟨p.inThink, p.colorOpen, p.lastOutputNewline⟩

theorem shown_decorated (useColor : Bool) (s : Screen) (items : List Item) :
    Decorated (contents items) (shown useColor s items) := by
  induction items generalizing s with
  | nil =>
    unfold shown contents
    split
    · exact .off .nil
    · exact .nil
  | cons item items ih =>
    cases item with
    | opens => exact ih _
    | closes =>
      have tail := ih ⟨false, s.grey && !useColor, true⟩
      unfold shown contents
      split <;> split
      · exact .off tail
      · exact .off (.newline tail)
      · exact tail
      · exact .newline tail
    | octet c =>
      have tail := ih ⟨s.inThink, s.grey || (s.inThink && useColor), c = 10⟩
      unfold shown contents
      split
      · exact .grey (.octet c tail)
      · exact .octet c tail

/-- The scan of a whole text shows its items. -/
theorem scan_shown {text : Bytes} {items : List Item} (reads : Reads text items) (p : TokenPrinter) :
    (resetColor (scan true text p)).out = p.out ++ shown p.useColor p.screen items := by
  induction reads generalizing p with
  | nil =>
    rw [scan_nil]
    unfold resetColor shown TokenPrinter.screen
    split
    · rfl
    · exact (List.append_nil _).symm
  | opens _ ih =>
    rw [scan_open, ih]
    rfl
  | closes _ ih =>
    rw [scan_close, ih, shown_closes]
    obtain ⟨ft, think, grey, color, newline, pending, out⟩ := p
    unfold endThink resetColor TokenPrinter.screen
    cases color <;> cases grey <;> cases newline <;> simp
  | @octet c _ _ noOpen noClose _ ih =>
    rw [scan_char (fun starts => noOpen (hasPrefix_iff.mp starts)) (fun starts => noClose (hasPrefix_iff.mp starts)) (.inl rfl),
      ih, shown_octet]
    obtain ⟨ft, think, grey, color, newline, pending, out⟩ := p
    unfold writeChar setGrey TokenPrinter.screen
    cases think <;> cases color <;> cases grey <;> simp

end items

section runs

theorem process_formatThinking (p : TokenPrinter) (text : Bytes) (finish : Bool) :
    (tokenPrinterProcess p text finish).formatThinking = p.formatThinking := processLoop_formatThinking _ _ _ _

theorem writeText_thinking {p : TokenPrinter} (thinking : p.formatThinking = true) (text : Bytes) :
    tokenPrinterWriteText p text = tokenPrinterProcess p text false := if_pos thinking

theorem writeTexts_thinking {p : TokenPrinter} (thinking : p.formatThinking = true) (pieces : List Bytes) :
    pieces.foldl tokenPrinterWriteText p = pieces.foldl (fun p text => tokenPrinterProcess p text false) p ∧
      (pieces.foldl tokenPrinterWriteText p).formatThinking = true := by
  induction pieces generalizing p with
  | nil => exact ⟨rfl, thinking⟩
  | cons text pieces ih =>
    rw [List.foldl_cons, List.foldl_cons, writeText_thinking thinking]
    apply ih
    rw [process_formatThinking]
    exact thinking

theorem finish_thinking {p : TokenPrinter} (thinking : p.formatThinking = true) :
    tokenPrinterFinish p = resetColor (tokenPrinterProcess p [] true) := if_pos thinking

/-- A run of the printer is one scan of the whole text. -/
theorem run_scan {p : TokenPrinter} (idle : p.pending = []) (thinking : p.formatThinking = true) (pieces : List Bytes) :
    tokenPrinterFinish (pieces.foldl tokenPrinterWriteText p) = resetColor (scan true pieces.flatten p) := by
  obtain ⟨same, still⟩ := writeTexts_thinking thinking pieces
  have whole : p.pending ++ (pieces.flatten ++ []) = pieces.flatten := by rw [idle, List.nil_append, List.append_nil]
  have start : { p with pending := [] } = p := by rw [← idle]
  rw [finish_thinking still, same, pieces_process, process_eq, whole, start]

/-- However a reply is cut, the printer shows the same: the octets of the text but for its
    think tags, every one of them, with the grey and the ends of lines that the tags call for. -/
theorem token_printer_split_insensitive (p : TokenPrinter) (idle : p.pending = []) (thinking : p.formatThinking = true)
    (pieces : List Bytes) :
    tokenPrinterFinish (pieces.foldl tokenPrinterWriteText p) = tokenPrinterFinish (tokenPrinterWriteText p pieces.flatten) ∧
    pieces.foldl tokenPrinterWriteText p = pieces.foldl (fun p text => tokenPrinterProcess p text false) p ∧
    ∃ items, Reads pieces.flatten items ∧
      (tokenPrinterFinish (pieces.foldl tokenPrinterWriteText p)).out = p.out ++ shown p.useColor p.screen items ∧
      Decorated (contents items) (shown p.useColor p.screen items) := by
  have run := run_scan idle thinking pieces
  have one := run_scan idle thinking [pieces.flatten]
  rw [List.flatten_cons, List.flatten_nil, List.append_nil, List.foldl_cons, List.foldl_nil] at one
  obtain ⟨items, reads⟩ := reads_exists pieces.flatten
  refine ⟨run.trans one.symm, (writeTexts_thinking thinking pieces).1, items, reads, ?_, shown_decorated _ _ _⟩
  rw [run]
  exact scan_shown reads p

/-- A tag that begins inside a failed one, cut in the middle of both. -/
def cutReply : List Bytes := [bytes "<thi<th", bytes "ink>a</th", bytes "ink>"]

theorem token_printer_split_insensitive_cut :
    tokenPrinterFinish (cutReply.foldl tokenPrinterWriteText ⟨true, true, false, true, true, [], []⟩) =
      tokenPrinterFinish (tokenPrinterWriteText ⟨true, true, false, true, true, [], []⟩ (bytes "<thi<think>a</think>")) :=
  (token_printer_split_insensitive ⟨true, true, false, true, true, [], []⟩ rfl rfl cutReply).1

end runs

end Ds4.Cli
