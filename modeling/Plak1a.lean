import Plak1a.Accelerometer.I2c
import Plak1a.Accelerometer.Transfer
import Plak1a.Barcode.Decode
import Plak1a.Barcode.Delay
import Plak1a.Barcode.Division
import Plak1a.Barcode.Ean13
import Plak1a.Barcode.Jitter
import Plak1a.Barcode.Overrun
import Plak1a.Barcode.Reader
import Plak1a.Barcode.Symbols
import Plak1a.Barcode.Ticks
import Plak1a.Barcode.Timer
import Plak1a.Boot.Crc32
import Plak1a.Boot.Drift
import Plak1a.Boot.Interrupts
import Plak1a.Boot.LoadSerial
import Plak1a.Boot.Number
import Plak1a.Boot.SRecord
import Plak1a.Boot.SaveLoad
import Plak1a.Boot.Strtoul
import Plak1a.Boot.Udelay
import Plak1a.Camera.C328r
import Plak1a.Camera.JpegLoop
import Plak1a.Camera.JpegPicture
import Plak1a.Camera.Main
import Plak1a.Camera.RawPicture
import Plak1a.Camera.Replies
import Plak1a.Camera.RxFifo
import Plak1a.Camera.TxFifo
import Plak1a.Camera.TxProgress
import Plak1a.Camera.TxWrite
import Plak1a.Camera.UartRx
import Plak1a.Camera.UartTx
import Plak1a.Command.Macros
import Plak1a.Command.MainLoop
import Plak1a.Command.Readline
import Plak1a.Command.Run
import Plak1a.Command.Shell
import Plak1a.Env.Data
import Plak1a.Env.Entries
import Plak1a.Env.Rewrite
import Plak1a.Env.Saveenv
import Plak1a.Env.Setenv
import Plak1a.Env.Variables
import Plak1a.Flash.Access
import Plak1a.Flash.Bank
import Plak1a.Flash.Board
import Plak1a.Flash.Erase
import Plak1a.Flash.EraseTrace
import Plak1a.Flash.Guarded
import Plak1a.Flash.Info
import Plak1a.Flash.Programmed
import Plak1a.Flash.ReadMode
import Plak1a.Flash.Sectors
import Plak1a.Flash.Tiling
import Plak1a.Flash.TimedWrite
import Plak1a.Flash.WriteBuff
import Plak1a.Kernel.Direction
import Plak1a.Kernel.Gpio
import Plak1a.Lan.Mac
import Plak1a.Lan.Open
import Plak1a.Lan.OpenResult
import Plak1a.Lan.Phy
import Plak1a.Lan.Receive
import Plak1a.Lan.RxQueue
import Plak1a.Lan.RxResult
import Plak1a.Lan.RxSync
import Plak1a.Lan.Transmit
import Plak1a.Lan.TxComplete
import Plak1a.Lan.Udelay
import Plak1a.Lan.UipRead
import Plak1a.Lan.UipSend
import Plak1a.Lcd.Disable
import Plak1a.Lcd.Et0320fb
import Plak1a.Lcd.Gram
import Plak1a.Lcd.Ili9320
import Plak1a.Lcd.Ili932x
import Plak1a.Lcd.Init
import Plak1a.Lcd.Layout
import Plak1a.Lcd.Mmap
import Plak1a.Lcd.Palette
import Plak1a.Lcd.Probe
import Plak1a.Lcd.Refresh
import Plak1a.Lcd.Registers
import Plak1a.Lib.Bytes
import Plak1a.Lib.Countdown
import Plak1a.Lib.Cuts
import Plak1a.Lib.Fields
import Plak1a.Lib.Keyed
import Plak1a.Lib.Ledger
import Plak1a.Lib.Linked
import Plak1a.Lib.Listing
import Plak1a.Lib.Masks
import Plak1a.Lib.Memory
import Plak1a.Lib.Poll
import Plak1a.Lib.Remainder
import Plak1a.Lib.Requests
import Plak1a.Lib.Ring
import Plak1a.Lib.Run
import Plak1a.Lib.ShiftRegister
import Plak1a.Lib.Terminal
import Plak1a.Lib.Trace
import Plak1a.Lib.While
import Plak1a.Lib.Writers
import Plak1a.Memory.Sram
import Plak1a.Net.Tftp
import Plak1a.Net.Transfer
import Plak1a.SdCard.CardFiles
import Plak1a.SdCard.DirInside
import Plak1a.SdCard.DirName
import Plak1a.SdCard.DirScan
import Plak1a.SdCard.Fat
import Plak1a.SdCard.FatDir
import Plak1a.SdCard.FatDirectory
import Plak1a.SdCard.FatPlain
import Plak1a.SdCard.FatRequests
import Plak1a.SdCard.FatVolume
import Plak1a.SdCard.FatWalk
import Plak1a.SdCard.Mmc
import Plak1a.SdCard.MmcCard
import Plak1a.SdCard.MmcErrors
import Plak1a.SdCard.MmcSector
import Plak1a.SdCard.PastEnd
import Plak1a.SdCard.ReadDirEnt
import Plak1a.SdCard.ReadFile
import Plak1a.SdCard.SearchFile
import Plak1a.Touchscreen.Detection
import Plak1a.Touchscreen.GetAdc
import Plak1a.Touchscreen.GetTs
import Plak1a.Touchscreen.I2c
import Plak1a.Touchscreen.Plates
import Plak1a.Touchscreen.Retries
import Plak1a.Touchscreen.Splice
import Plak1a.Touchscreen.Spread
