import FpgaLabs.Hal.LcdScroll
import FpgaLabs.Hal.LcdText
import FpgaLabs.Hal.SysClk
import FpgaLabs.Hal.UartLink
import FpgaLabs.Hw2.Entries
import FpgaLabs.Hw3.Multiplier
import FpgaLabs.Hw5.RippleAdder
import FpgaLabs.Hw6.Restart
import FpgaLabs.Hw8.BitSwap
import FpgaLabs.Hw8.CustomChar
import FpgaLabs.Lab6.Lab5
import FpgaLabs.Lab7.Buttons
import FpgaLabs.Lab7.ClkDiv
import FpgaLabs.Lab7.LcdLines
import FpgaLabs.Lab7.Tearing
import FpgaLabs.Ls163.Hw4a
import FpgaLabs.Nios.SdramProtocol
import FpgaLabs.Nios.SdramRefresh
import FpgaLabs.Pig.Range
import FpgaLabs.Pig.Rolls
import FpgaLabs.Scomp.Addi
import FpgaLabs.Scomp.Versions
import FpgaLabs.Scomp.Writes
import FpgaLabs.Simon.Stages
import FpgaLabs.Vga.Ranges
