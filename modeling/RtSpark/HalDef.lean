import Mathlib.Data.Nat.Notation
/-!
# Shared constants

`hal_def.h`: what the reader and the drivers agree on about the panel and
the text on it.
-/

namespace RtSpark

def lcdWidth : ℕ := 240
def lcdHeight : ℕ := 240
def chnFont24x24 : ℕ := 24

/-- `MAX_LINE_SIZE`: the columns of a row. -/
def maxLineSize : ℕ := lcdWidth / (chnFont24x24 / 2)

/-- `MAX_COLUMN_SIZE`: the rows of a page. -/
def maxColumnSize : ℕ := (lcdHeight - chnFont24x24) / chnFont24x24

/-- `MAX_CHARS_DISP`: the bytes a page array holds beside its NUL. -/
def maxCharsDisp : ℕ := maxLineSize * maxColumnSize

@[simp] theorem maxLineSize_eq : maxLineSize = 20 := rfl
@[simp] theorem maxCharsDisp_eq : maxCharsDisp = 180 := rfl

end RtSpark
