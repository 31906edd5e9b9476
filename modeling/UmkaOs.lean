import UmkaOs.Alloc.Blocks
import UmkaOs.Alloc.FirstFit
import UmkaOs.Alloc.Wraps
import UmkaOs.Arith.Bits
import UmkaOs.Arith.Callers
import UmkaOs.Arith.Divide
import UmkaOs.Arith.Shifts
import UmkaOs.Blackjack.Apart
import UmkaOs.Blackjack.Deck
import UmkaOs.Blackjack.Draws
import UmkaOs.Blackjack.Result
import UmkaOs.Blackjack.Stakes
import UmkaOs.Fmt.Counts
import UmkaOs.Fmt.Decimal
import UmkaOs.Fmt.Fields
import UmkaOs.Fmt.Files
import UmkaOs.Fmt.Fixed
import UmkaOs.Fmt.Legible
import UmkaOs.Fmt.Number
import UmkaOs.Fmt.Padding
import UmkaOs.Fmt.Pointer
import UmkaOs.Fmt.Scratch
import UmkaOs.Fmt.Strto
import UmkaOs.Gfx.Bounds
import UmkaOs.Image.Buffers
import UmkaOs.Image.Load
import UmkaOs.Input.Batches
import UmkaOs.Input.Buttons
import UmkaOs.Irq.Mouse
import UmkaOs.Irq.Pointer
import UmkaOs.Irq.Wakeup
import UmkaOs.Libc.Copy
import UmkaOs.Libc.Files
import UmkaOs.Microui.Cells
import UmkaOs.Microui.Clip
import UmkaOs.Microui.Controls
import UmkaOs.Microui.Drag
import UmkaOs.Microui.Scroll
import UmkaOs.Microui.Session
import UmkaOs.Microui.Tree
import UmkaOs.Microui.Wrap
import UmkaOs.Vfs.Buffers
import UmkaOs.Vfs.Delivery
import UmkaOs.Vfs.Failures
import UmkaOs.Vfs.Handles
import UmkaOs.Vfs.Leaks
import UmkaOs.Vfs.Lookup
import UmkaOs.Vfs.Names
import UmkaOs.Vfs.Position
import UmkaOs.Vfs.References
import UmkaOs.Vfs.View
