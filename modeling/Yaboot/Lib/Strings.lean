import Yaboot.Base.PowerPC
import Yaboot.Lib.Memmove

/-! The string and memory routines of `lib/string.S` beside `memmove`, one function for each
label. A comparison kept in `cr1` is a value of the round, since nothing else reads it. -/
namespace Yaboot.Lib.Strings
open Loop PowerPC Word

/-- A loop that looks for the end of a string. -/
def scan (p : Reg) (s : State) : Turn := s |> lbzu .r0 1 p |> cmpwi .r0 0 |> bneBack

/-- A byte is copied and looked at. -/
def copyByte (p : Reg) (s : State) : State :=
  s |> lbzu .r0 1 .r4 |> cmpwi .r0 0 |> stbu .r0 1 p

/-- The loop that copies a string, which `strcat` has a second time. -/
def strcpy1 (s : State) : Turn := s |> copyByte .r5 |> bneBack

def strcpy (s : State) : Option State :=
  s |> addi .r5 .r3 (-1) |> addi .r4 .r4 (-1) |> loop strcpy1

def strncpy1 (s : State) : Turn := s |> copyByte .r6 |> bdnzf

def strncpy (s : State) : Option State :=
  let s := s |> cmpwi .r5 0
  if s.cr0 = .eq then some s
  else s |> mtctr .r5 |> addi .r6 .r3 (-1) |> addi .r4 .r4 (-1) |> loop strncpy1

def strcat1 : State → Turn := scan .r5

def strcat (s : State) : Option State :=
  (s |> addi .r5 .r3 (-1) |> addi .r4 .r4 (-1) |> loop strcat1).bind fun s =>
    s |> addi .r5 .r5 (-1) |> loop strcpy1

/-- What `cr1` says of the first byte: zero is the end of the first string. -/
def atEnd (p : Reg) (s : State) : Ordering := compare (s32 ((s |> lbzu .r3 1 p).reg .r3)) 0

/-- Two bytes are looked at, and the second is taken from the first. -/
def compareByte (p : Reg) (s : State) : State :=
  s |> lbzu .r3 1 p |> lbzu .r0 1 .r4 |> subfDot .r3 .r0 .r3

def strcmp1 (s : State) : Turn :=
  if atEnd .r5 s = .eq then .out (s |> compareByte .r5) else s |> compareByte .r5 |> beqBack

def strcmp (s : State) : Option State :=
  s |> addi .r5 .r3 (-1) |> addi .r4 .r4 (-1) |> loop strcmp1

def strncmp1 (s : State) : Turn :=
  if atEnd .r6 s = .eq then .out (s |> compareByte .r6) else s |> compareByte .r6 |> bdnzt

def strncmp (s : State) : Option State :=
  let s := s |> cmpwi .r5 0 |> addi .r6 .r3 (-1) |> addi .r4 .r4 (-1)
  if s.cr0 = .eq then some s else s |> mtctr .r5 |> loop strncmp1

def strlen1 : State → Turn := scan .r4

def strlen (s : State) : Option State :=
  (s |> addi .r4 .r3 (-1) |> loop strlen1).map (subf .r3 .r3 .r4)

def strchr1 (s : State) : Turn :=
  let s := s |> lbzu .r0 1 .r3 |> cmpw .r0 .r4
  let cr1 := compare (s32 (s.reg .r0)) 0
  if s.cr0 = .eq then .out s
  else if cr1 ≠ .eq then .again s
  else .out (s |> li .r3 0)

def strchr (s : State) : Option State := s |> addi .r3 .r3 (-1) |> loop strchr1

def strrchr1 (s : State) : Turn :=
  let s := s |> lbzu .r0 1 .r5 |> cmpwi .r0 0
  let cr1 := compare (s32 (s.reg .r0)) (s32 (s.reg .r4))
  if s.cr0 = .eq then .out s
  else if cr1 ≠ .eq then .again s
  else .again (s |> mr .r3 .r5)

def strrchr (s : State) : Option State := s |> addi .r5 .r3 (-1) |> li .r3 0 |> loop strrchr1

/-- The body of the loop at 8. -/
def memsetByte (s : State) : State := s |> stbu .r4 1 .r6

def memset7 (s : State) : State :=
  let s := s |> cmpwi .r5 0
  if s.cr0 = .eq then s else s |> mtctr .r5 |> addi .r6 .r6 3 |> bdnz memsetByte

def memset6 (s : State) : State := s |> andiDot .r5 .r5 3 |> memset7

/-- The body of the loop at 1. -/
def memsetWord (s : State) : State := s |> stwu .r4 4 .r6

def memset (s : State) : State :=
  let s := s |> rlwimi .r4 .r4 8 16 23 |> rlwimi .r4 .r4 16 0 15 |> addi .r6 .r3 (-4) |>
    cmplwi .r5 4
  if s.cr0 = .lt then memset7 s
  else
    let s := s |> stwu .r4 4 .r6
    if s.cr0 = .eq then s
    else
      let s := s |> andiDot .r0 .r6 3 |> add .r5 .r0 .r5 |> subf .r6 .r0 .r6 |>
        rlwinm .r0 .r5 (32 - 2) 2 31 |> mtctr .r0 |> State.countDown
      if s.ctr = 0 then memset6 s else s |> bdnz memsetWord |> memset6

def bzero (s : State) : State := s |> mr .r5 .r4 |> li .r4 0 |> memset

def bcopy (s : State) : State := s |> mr .r6 .r3 |> mr .r3 .r4 |> mr .r4 .r6 |> memcpy

def memcmp1 (s : State) : Turn := s |> compareByte .r6 |> bdnzt

def memcmp (s : State) : Option State :=
  let s := s |> cmpwi .r5 0
  if s.cr0 ≠ .gt then some s
  else s |> mtctr .r5 |> addi .r6 .r3 (-1) |> addi .r4 .r4 (-1) |> loop memcmp1

end Yaboot.Lib.Strings
