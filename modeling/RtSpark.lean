import RtSpark.Common.Loop
import RtSpark.Common.Run
import RtSpark.Common.CString
import RtSpark.Common.DoubleByte
import RtSpark.Common.Raster
import RtSpark.Common.Ring
import RtSpark.Common.Edge
import RtSpark.Common.Nor
import RtSpark.Common.Word
import RtSpark.Common.Tiling
import RtSpark.HalDef
import RtSpark.Reader.Model.Pages
import RtSpark.Reader.Model.Reader
import RtSpark.Reader.Paginate
import RtSpark.Reader.Lossless
import RtSpark.Reader.Progress
import RtSpark.Reader.Load
import RtSpark.Reader.Navigate
import RtSpark.Reader.NovelList
import RtSpark.Lcd.Model.Panel
import RtSpark.Lcd.Model.Driver
import RtSpark.Lcd.Model.Draw
import RtSpark.Lcd.Model.ShowString
import RtSpark.Lcd.Bus
import RtSpark.Lcd.History
import RtSpark.Lcd.Clear
import RtSpark.Lcd.Line
import RtSpark.Lcd.Graphic
import RtSpark.Lcd.ShowString
import RtSpark.Reader.Layout
import RtSpark.Button.Model.MultiButton
import RtSpark.Button.Model.Keypad
import RtSpark.Button.Keypad
import RtSpark.Gpio.Model.DrvGpio
import RtSpark.Gpio.PinIrq
import RtSpark.Pwm.Model.DrvPwm
import RtSpark.Pwm.Registers
import RtSpark.Uart.Model.DrvUsart
import RtSpark.Uart.DmaReceive
import RtSpark.Fs.Model.LvPortFs
import RtSpark.Fs.Position
import RtSpark.Button.Alternate
import RtSpark.Flash.Model.Fal
import RtSpark.Flash.Model.SfudPort
import RtSpark.Flash.Model.DrvFlash
import RtSpark.Flash.Model.SpiFlash
import RtSpark.Flash.Partition
import RtSpark.Flash.Read
import RtSpark.Flash.FontLib
import RtSpark.Flash.Contract
import RtSpark.Sdio.Model.DrvSdio
import RtSpark.Sdio.InTime
import RtSpark.Sdio.Package
import RtSpark.Sdio.Completion
import RtSpark.Common.Grid
import RtSpark.Common.Tokens
import RtSpark.Reader.Greedy
import RtSpark.Reader.InBuffer
import RtSpark.Reader.Boundary
import RtSpark.Reader.Console
import RtSpark.Common.TokenLoop
import RtSpark.Lcd.TextReads
import RtSpark.Lcd.Glyphs
import RtSpark.Lcd.Bytes
import RtSpark.Lcd.Fill
import RtSpark.Lcd.CharDraw
import RtSpark.Lcd.Flush
import RtSpark.Audio.Model.DrvSound
import RtSpark.Audio.Volume
import RtSpark.Lcd.LinePath
import RtSpark.Sdio.Model.Iocfg
import RtSpark.Sdio.Clock
import RtSpark.Delay.Model.DrvCommon
import RtSpark.Delay.UsDelay
import RtSpark.Pwm.ReadBack
import RtSpark.Spi.Model.DrvSpi
import RtSpark.Spi.Chunks
import RtSpark.Flash.Model.FlashCalls
import RtSpark.Flash.WriteOnce
import RtSpark.SdCard.Model.FileInfos
import RtSpark.SdCard.FileInfos
import RtSpark.SdCard.Model.FileCommands
import RtSpark.SdCard.FileCommands
import RtSpark.SdCard.FontUpdate
import RtSpark.SdCard.UpdateCalls
import RtSpark.Common.Blocks
import RtSpark.Kernel.Model.Mem
import RtSpark.Kernel.Chain
import RtSpark.Kernel.Heap
import RtSpark.Kernel.Model.Objects
import RtSpark.Kernel.Objects
import RtSpark.Kernel.Runs
import RtSpark.Common.Backlog
import RtSpark.Uart.Model.Serial
import RtSpark.Uart.SerialFifo
import RtSpark.Uart.Reception
import RtSpark.Common.Text
import RtSpark.Common.Words
import RtSpark.Shell.Model.Msh
import RtSpark.Shell.Split
import RtSpark.Shell.Exec
import RtSpark.Common.LineEditor
import RtSpark.Shell.Model.Shell
import RtSpark.Shell.Line
import RtSpark.Shell.Editor
import RtSpark.Common.TerminalRow
import RtSpark.Shell.Bounds
import RtSpark.Shell.Display
import RtSpark.Shell.Complete
import RtSpark.Common.Calendar
import RtSpark.Time.Gmtime
import RtSpark.Time.Timegm
import RtSpark.Time.Asctime
import RtSpark.Time.FatTime
import RtSpark.Time.Rtc
